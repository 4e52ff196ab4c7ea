import SchemaRoutes.Proofs.Api.OpenApi
import SchemaRoutes.Proofs.Api.Roots
import SchemaRoutes.Proofs.Api.Trail

/-! # Parameters are counted along the trail

A position keeps its template, its parameters and its steps side by side, and each step of a walk
extends them together: a parameter that is added has the number of those before it in its name.
The first step is always to a property, so no endpoint stands at an empty template.
-/

namespace SchemaRoutes

def TrailStep.parameter? : TrailStep → Option String
  | property _ => none
  | item parameter => some parameter

namespace IdParameter

def nthName (index : ℕ) : String := "pathParam" ++ Text.decimal index

theorem nthName_injective : Function.Injective nthName := by
  intro i j h
  have hd : Text.decimal i = Text.decimal j := (String.append_right_inj _).mp h
  have hv := congrArg Text.digitsValue? (String.ofList_injective hd)
  rwa [Text.digitsValue?_toDigits, Text.digitsValue?_toDigits, Option.some.injEq] at hv

end IdParameter

/-- The names of the parameters are those of the item steps, and they are numbered from zero. -/
structure CountedAlong (parameters : List IdParameter) (trail : List TrailStep) : Prop where
  first : ∃ name rest, trail = .property name :: rest
  names : parameters.map IdParameter.name = trail.filterMap TrailStep.parameter?
  numbered : parameters.map IdParameter.name =
    (List.range parameters.length).map IdParameter.nthName

namespace Position

def IsCounted (pos : Position) : Prop := CountedAlong pos.parameters pos.steps

variable {pos : Position}

theorem isCounted_property_root (name : String) : (root.property name).IsCounted where
  first := ⟨name, [], rfl⟩
  names := rfl
  numbered := rfl

theorem IsCounted.property (h : pos.IsCounted) (name : String) : (pos.property name).IsCounted where
  first := by
    obtain ⟨first, rest, hr⟩ := h.first
    exact ⟨first, _, by rw [Position.property, hr, List.cons_append]⟩
  names := by simp [Position.property, h.names, TrailStep.parameter?]
  numbered := h.numbered

theorem IsCounted.member (h : pos.IsCounted) (title : Option String) :
    (pos.member title).IsCounted where
  first := by
    obtain ⟨first, rest, hr⟩ := h.first
    exact ⟨first, _, by rw [Position.member, hr, List.cons_append]⟩
  names := by simp [Position.member, h.names, TrailStep.parameter?]
  numbered := by
    simp only [Position.member, List.map_append, List.length_append, List.length_singleton,
      List.range_succ, h.numbered]
    rfl

end Position

namespace Site

variable {schema : Schema} {site : Site}

theorem isCounted (hs : site ∈ Site.all schema) : site.position.IsCounted :=
  forall_mem_all (fun _ name h => h.property name) (fun _ title h => h.member title)
    Position.isCounted_property_root site hs

theorem exists_position_of_collection (hs : site ∈ Site.all schema) (hk : site.kind = .collection) :
    ∃ (before : Position) (name : String), site.position = before.property name := by
  obtain ⟨r, hr⟩ := exists_resources schema
  rw [hr] at hs
  obtain ⟨_, hop, before, -, hm⟩ := r.exists_walk_of_mem_sites hs
  refine ⟨before, hop.name, ?_⟩
  unfold Hop.sites at hm
  split at hm
  · rcases List.mem_pair.mp hm with rfl | rfl
    · rfl
    · cases hk
  · rw [List.mem_singleton.mp hm] at hk ⊢

end Site

theorem WritesOut.template_eq {template : String} {parameters : List IdParameter}
    {trail : List TrailStep} (h : WritesOut template parameters trail) :
    template = String.join (trail.map fun step => "/" ++ step.text) := by
  rw [← String.toList_inj, h.toList_template, String.toList_join, List.flatMap_map,
    List.flatMap_map]
  exact List.flatMap_congr fun step _ => by simp

structure Endpoint.FollowsTrail (e : Endpoint) : Prop where
  template : e.template = String.join (e.trail.map fun step => "/" ++ step.text)
  counted : CountedAlong e.parameters e.trail
  collection : e.kind = .collection → ∃ before name, e.trail = before ++ [.property name]

theorem Site.followsTrail_endpoint {schema : Schema} {site : Site} (hs : site ∈ Site.all schema)
    (m : Mount) (dispatcher : String) : (site.endpoint m dispatcher).FollowsTrail where
  template := by
    have ht : site.position.template.isEmpty = false := by
      simpa [String.isEmpty_iff] using template_ne hs
    simp only [endpoint, ht, Bool.false_eq_true, if_false]
    exact (isWrittenOut hs).template_eq
  counted := isCounted hs
  collection hk := by
    obtain ⟨before, name, hp⟩ := exists_position_of_collection hs hk
    exact ⟨before.steps, name, by rw [endpoint, hp]; rfl⟩

theorem CountedAlong.nodup_names {parameters : List IdParameter} {trail : List TrailStep}
    (h : CountedAlong parameters trail) : (parameters.map IdParameter.name).Nodup := by
  rw [h.numbered]
  exact List.nodup_range.map IdParameter.nthName_injective

namespace Api

variable {dispatcher : String} {roots : Roots} {api : Api} {e : Endpoint}

/-- Every endpoint has the template and the parameters of its trail, which begins with a property
and ends with one if it leads to a collection. The URL is the base URL with the template behind it,
and all operations show these parameters, as integers that a path has to give. -/
theorem parameters_of_trail (h : ofRoots dispatcher roots = .ok api) (he : e ∈ api.endpoints) :
    e.FollowsTrail ∧ (e.parameters.map IdParameter.name).Nodup ∧
      (∃ root ∈ roots, ∃ hop, e.BelongsTo root hop ∧ e.baseUrl = root.baseUrl ∧
        e.url = root.baseUrl ++ e.template) ∧
      ∀ op ∈ e.operations, ∃ rendered, e.toOpenApi.get? op.action.httpMethod = some rendered ∧
        rendered.get? "parameters" = some (.arr (e.parameters.map fun p =>
          .obj [("in", .str "path"), ("name", .str p.name),
            ("schema", .obj [("type", .str "integer")]), ("required", .bool true),
            ("description", .str p.description)])) := by
  have hfollows : e.FollowsTrail := by
    obtain ⟨root, -, site, hs, -, rfl⟩ := exists_root_of_mem_endpoints h he
    exact Site.followsTrail_endpoint hs _ _
  refine ⟨hfollows, hfollows.counted.nodup_names, ?_, fun op hop => ?_⟩
  · obtain ⟨root, hroot, hop, site, hbelongs, -, -, hsite⟩ := exists_hop_of_mem_endpoints h he
    obtain ⟨before, served, -, hserves⟩ := hbelongs.serves
    refine ⟨root, hroot, hop, hbelongs, by rw [hsite]; rfl, ?_⟩
    rw [hserves.url, hserves.template]
  · exact ⟨_, Endpoint.get?_toOpenApi ((ofRoots_coherent h).methods e he) hop, rfl⟩

theorem parameters_of_folders : ∃ api, ofRoots "main" [.folders "/v1"] = .ok api ∧
    ∃ e ∈ api.endpoints,
      e.trail = [.property "folders", .item "pathParam0", .property "notes", .item "pathParam1"] ∧
      e.FollowsTrail ∧ e.parameters.map IdParameter.name = ["pathParam0", "pathParam1"] ∧
      e.url = "/v1" ++ e.template ∧
      ∃ rendered, e.toOpenApi.get? "delete" = some rendered ∧
        rendered.get? "parameters" = some (.arr [
          .obj [("in", .str "path"), ("name", .str "pathParam0"),
            ("schema", .obj [("type", .str "integer")]), ("required", .bool true),
            ("description", .str "ID for item")],
          .obj [("in", .str "path"), ("name", .str "pathParam1"),
            ("schema", .obj [("type", .str "integer")]), ("required", .bool true),
            ("description", .str "ID for Note")]]) := by
  obtain ⟨api, h, e, he, htrail, hparameters, ⟨op, hop, hmethod⟩⟩ :
      ∃ api, ofRoots "main" [.folders "/v1"] = .ok api ∧ ∃ e ∈ api.endpoints,
        e.trail = [.property "folders", .item "pathParam0", .property "notes",
          .item "pathParam1"] ∧
        e.parameters = [⟨"pathParam0", "ID for item"⟩, ⟨"pathParam1", "ID for Note"⟩] ∧
        ∃ op ∈ e.operations, op.action.httpMethod = "delete" :=
    ⟨_, rfl, _, .tail _ (.head _), rfl, by decide +kernel, _,
      .tail _ (.tail _ (.tail _ (.head _))), rfl⟩
  obtain ⟨hfollows, -, ⟨root, hroot, -, -, -, hurl⟩, hrendered⟩ := parameters_of_trail h he
  obtain rfl := List.mem_singleton.mp hroot
  have hdelete := hmethod ▸ hrendered op hop
  rw [hparameters] at hdelete
  refine ⟨api, h, e, he, htrail, hfollows, ?_, hurl, hdelete⟩
  rw [hparameters]
  rfl

end Api

end SchemaRoutes
