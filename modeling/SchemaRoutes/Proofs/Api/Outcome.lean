import SchemaRoutes.Proofs.Api.Compile

/-! # The outcome of a compilation

A compiled root has the endpoints of its resources, in order and nothing else. It compiles exactly
if it is a root, all its resources are complete, and all URLs and names are new.
-/

namespace SchemaRoutes

/-- Different from each other and from all that are old. -/
def Fresh (new old : List String) : Prop := new.Nodup ∧ ∀ x ∈ new, x ∉ old

theorem fresh_singleton {x : String} {old : List String} : Fresh [x] old ↔ x ∉ old := by
  simp [Fresh]

theorem fresh_nil (old : List String) : Fresh [] old := ⟨.nil, nofun⟩

theorem fresh_append {xs ys old : List String} :
    Fresh (xs ++ ys) old ↔ Fresh xs old ∧ Fresh ys (old ++ xs) := by
  simp only [Fresh, List.nodup_append, List.mem_append, not_or]
  constructor
  · rintro ⟨⟨hx, hy, hxy⟩, ho⟩
    refine ⟨⟨hx, fun x h => ho x (.inl h)⟩, hy, fun y h => ⟨ho y (.inr h), ?_⟩⟩
    intro h'
    exact hxy y h' y h rfl
  · rintro ⟨⟨hx, hox⟩, hy, hoy⟩
    refine ⟨⟨hx, hy, ?_⟩, ?_⟩
    · rintro x hx' _ hy' rfl
      exact (hoy x hy').2 hx'
    · rintro x (h | h)
      · exact hox x h
      · exact (hoy x h).1

theorem Fresh.nodup_append {new old : List String} (h : Fresh new old) (ho : old.Nodup) :
    (old ++ new).Nodup := by
  refine List.nodup_append.mpr ⟨ho, h.1, ?_⟩
  rintro x hx _ hy rfl
  exact h.2 x hy hx

/-- A resource that can be given endpoints. -/
def Schema.IsComplete (s : Schema) : Prop := s.HasHandler ∧ s.HasTitle ∧ s.SeedReads

namespace Obligation

variable {m : Mount} {taken : Taken}

theorem forall_ofSite_iff {site : Site} :
    (∀ o ∈ ofSite taken site, o.Holds m) ↔
      site.schema.IsComplete ∧ Fresh [site.url m] taken.urls ∧
        Fresh (site.entries m).keys taken.names := by
  obtain ⟨pos, kind, s⟩ := site
  rw [fresh_singleton, Schema.IsComplete]
  cases kind with
  | collection =>
    simp only [ofSite, EndpointKind.checks, List.map_cons, List.map_nil, List.forall_mem_cons,
      Site.entries, Members.keys, fresh_nil, Holds]
    tauto
  | item =>
    simp only [ofSite, EndpointKind.checks, List.map_cons, List.map_nil, List.forall_mem_cons,
      Site.entries, Members.keys, fresh_singleton, Holds]
    tauto

theorem forall_ofSites_iff {sites : List Site} :
    (∀ o ∈ ofSites m taken sites, o.Holds m) ↔
      (∀ site ∈ sites, site.schema.IsComplete) ∧
        Fresh (sites.map (Site.url m)) taken.urls ∧
        Fresh (Site.catalog m sites).keys taken.names := by
  induction sites generalizing taken with
  | nil => simp [ofSites, Site.catalog, fresh_nil]
  | cons site sites ih =>
    have hu : (site :: sites).map (Site.url m) = [site.url m] ++ sites.map (Site.url m) := rfl
    rw [ofSites, List.forall_mem_append, forall_ofSite_iff, ih, List.forall_mem_cons, hu,
      fresh_append, Site.catalog_cons, Members.keys_append, fresh_append]
    simp only [Taken.add]
    tauto

end Obligation

/-! ## The sites of resources -/

theorem exists_sitesAlong_eq (pos : Position) (w : List Hop) (h : Hop) :
    ∃ before : Position, sitesAlong pos (w ++ [h]) = h.sites (before.property h.name) := by
  induction w generalizing pos with
  | nil => exact ⟨pos, rfl⟩
  | cons h' w ih =>
    rw [List.cons_append, sitesAlong_cons (by simp)]
    exact ih _

theorem Hop.schema_of_mem_sites {h : Hop} {here : Position} {site : Site}
    (hs : site ∈ h.sites here) : site.schema = h.node := by
  unfold Hop.sites at hs
  split at hs
  · rcases List.mem_pair.mp hs with rfl | rfl <;> rfl
  · rw [List.mem_singleton.mp hs]

theorem Hop.exists_mem_sites (h : Hop) (here : Position) : ∃ site, site ∈ h.sites here := by
  unfold Hop.sites
  split <;> exact ⟨_, .head _⟩

theorem Position.template_property_ne (pos : Position) (name : String) :
    (pos.property name).template ≠ "" := by
  simp [property]

theorem Position.template_member_ne (pos : Position) (title : Option String) :
    (pos.member title).template ≠ "" := by
  simp [member]

theorem Hop.template_ne_of_mem_sites {h : Hop} {before : Position} {name : String} {site : Site}
    (hs : site ∈ h.sites (before.property name)) : site.position.template ≠ "" := by
  unfold Hop.sites at hs
  split at hs
  · rcases List.mem_pair.mp hs with rfl | rfl
    · exact Position.template_property_ne _ _
    · exact Position.template_member_ne _ _
  · rw [List.mem_singleton.mp hs]
    exact Position.template_property_ne _ _

theorem ResourceWalk.exists_eq_append {s : Schema} {w : List Hop} (hw : ResourceWalk s w) :
    ∃ v h, w = v ++ [h] := by
  induction hw with
  | last => exact ⟨[], _, rfl⟩
  | step _ _ ih =>
    obtain ⟨v, h, rfl⟩ := ih
    exact ⟨_ :: v, h, rfl⟩

namespace Resources

variable {s : Schema} (r : Resources s)

theorem exists_walk_of_mem_sites {site : Site} (hs : site ∈ r.sites) :
    ∃ w h, ∃ before : Position,
      ResourceWalk s (w ++ [h]) ∧ site ∈ h.sites (before.property h.name) := by
  obtain ⟨w, hw, hs⟩ := List.mem_flatMap.mp hs
  rw [r.mem_iff] at hw
  obtain ⟨v, h, rfl⟩ := hw.exists_eq_append
  obtain ⟨before, he⟩ := exists_sitesAlong_eq .root v h
  exact ⟨v, h, before, hw, he ▸ hs⟩

theorem forall_mem_sites_iff {p : Schema → Prop} :
    (∀ site ∈ r.sites, p site.schema) ↔ ∀ w h, ResourceWalk s (w ++ [h]) → p h.node := by
  constructor
  · intro ha w h hw
    obtain ⟨before, he⟩ := exists_sitesAlong_eq .root w h
    obtain ⟨site, hs⟩ := h.exists_mem_sites (before.property h.name)
    rw [← Hop.schema_of_mem_sites hs]
    exact ha site (List.mem_flatMap.mpr ⟨_, (r.mem_iff _).mpr hw, he ▸ hs⟩)
  · intro ha site hs
    obtain ⟨w, h, before, hw, hs⟩ := r.exists_walk_of_mem_sites hs
    rw [Hop.schema_of_mem_sites hs]
    exact ha w h hw

end Resources

structure Endpoint.Serves (m : Mount) (e : Endpoint) (site : Site) : Prop where
  kind : e.kind = site.kind
  url : e.url = m.baseUrl ++ site.position.template
  template : e.template = site.position.template
  parameters : e.parameters = site.position.parameters
  trail : e.trail = site.position.steps
  handler : site.schema.get? Schema.controllerKey = some (.str e.handler)

theorem Site.serves_endpoint {m : Mount} {dispatcher : String} {site : Site}
    (hc : site.schema.IsComplete) (ht : site.position.template ≠ "") :
    (site.endpoint m dispatcher).Serves m site where
  kind := rfl
  url := by
    have hu : m.baseUrl ++ site.position.template ≠ "" := by simp [ht]
    simp [endpoint, url, Mount.url, String.isEmpty_iff, hu]
  template := by simp [endpoint, String.isEmpty_iff, ht]
  parameters := rfl
  trail := rfl
  handler := by
    obtain ⟨⟨name, hn, -⟩, -⟩ := hc
    simp [endpoint, Schema.handlerText, hn, Json.str?]

/-- Notes in folders. A folder itself is no resource. -/
def Schema.folders : Schema :=
  let note : Json := .obj [("$id", .str "note"), ("title", .str "Note"),
    (Schema.controllerKey, .str "notes"), (Schema.seedKey, .str "\x7b\x7d")]
  let listOf (items : Json) : Json := .obj [("type", .str "array"), ("items", items)]
  let folder : Json := .obj [("properties", .obj [("notes", listOf note)])]
  .obj [("properties", .obj [("folders", listOf folder)])]

/-- The endpoints of a compiled schema are those of its resources, each once and in order. -/
theorem Api.endpoints_of_resources {schema : Schema} {dispatcher baseUrl : String} {api : Api}
    (h : ofSchema schema dispatcher baseUrl = .ok api) :
    ∃ r : Resources schema, List.Forall₂ (Endpoint.Serves ⟨baseUrl⟩) api.endpoints r.sites := by
  obtain ⟨r, hr⟩ := exists_resources schema
  obtain ⟨-, ho, rfl⟩ := mount_eq_ok_iff.mp h
  rw [hr] at ho ⊢
  refine ⟨r, ?_⟩
  simp only [extend, empty, List.nil_append, List.forall₂_map_left_iff, List.forall₂_same]
  intro site hs
  obtain ⟨_, _, _, _, hm⟩ := r.exists_walk_of_mem_sites hs
  exact Site.serves_endpoint ((Obligation.forall_ofSites_iff.mp ho).1 site hs)
    (Hop.template_ne_of_mem_sites hm)

theorem Api.endpoints_of_folders : ∃ api, ofSchema Schema.folders "main" "/v1" = .ok api ∧
    api.urls = ["/v1/folders/\x7bpathParam0\x7d/notes",
      "/v1/folders/\x7bpathParam0\x7d/notes/\x7bpathParam1\x7d"] ∧
    ∃ r : Resources Schema.folders, List.Forall₂ (Endpoint.Serves ⟨"/v1"⟩) api.endpoints r.sites :=
  ⟨_, rfl, rfl, endpoints_of_resources rfl⟩

/-- What a root comes to: it compiles exactly if it is a root, its resources are complete, and
their URLs and names are new. Otherwise the first check that fails, over the sites in order, is the
error. -/
theorem Api.mount_outcome (api : Api) (schema : Schema) (baseUrl : String) :
    ∃ r : Resources schema,
      ((∃ api', api.mount schema baseUrl = .ok api') ↔
        schema.IsRoot ∧ (∀ w h, ResourceWalk schema (w ++ [h]) → h.node.IsComplete) ∧
          Fresh (r.sites.map (Site.url ⟨baseUrl⟩)) api.urls ∧
          Fresh (Site.catalog ⟨baseUrl⟩ r.sites).keys api.catalog.keys) ∧
      ∀ e, api.mount schema baseUrl = .error e ↔
        ¬ schema.IsRoot ∧ e = .rootNotRecord ∨
        schema.IsRoot ∧ ∃ o, FirstFailure (Obligation.Holds ⟨baseUrl⟩)
          (Obligation.ofSites ⟨baseUrl⟩ api.taken r.sites) o ∧ e = o.error ⟨baseUrl⟩ := by
  obtain ⟨r, hr⟩ := exists_resources schema
  refine ⟨r, ?_, fun e => hr ▸ mount_eq_error_iff⟩
  simp only [mount_eq_ok_iff, hr, Obligation.forall_ofSites_iff, r.forall_mem_sites_iff]
  constructor
  · rintro ⟨_, hroot, ho, -⟩
    exact ⟨hroot, ho⟩
  · rintro ⟨hroot, ho⟩
    exact ⟨_, hroot, ho, rfl⟩

end SchemaRoutes
