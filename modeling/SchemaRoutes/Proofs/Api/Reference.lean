import SchemaRoutes.Proofs.Api.Merge
import SchemaRoutes.Proofs.Api.OpenApi
import SchemaRoutes.Proofs.Api.Roots
import SchemaRoutes.Proofs.Source.Reference

/-! # References to catalog entries

An operation names its entry by a pointer in which the name stands as it is, while whoever follows
the pointer reads escapes. So the pointer leads to the entry if the name is plain. In any other name
a slash is taken for the end of a key, or an escape is read that nobody has written.
-/

namespace SchemaRoutes

open Text

namespace Pointer

theorem toList_pointer (name : String) :
    (EntryRef.pointer name).toList =
      '#' :: '/' :: ("components".toList ++ '/' :: ("schemas".toList ++ '/' :: name.toList)) := by
  have hname : (EntryRef.pointer name).toList = "#/components/schemas/".toList ++ name.toList :=
    String.toList_append
  have hstart : "#/components/schemas/".toList =
      '#' :: '/' :: ("components".toList ++ '/' :: ("schemas".toList ++ ['/'])) := by
    decide +kernel
  rw [hname, hstart]
  simp only [List.cons_append, List.append_assoc, List.nil_append]

theorem keys_pointer (name : String) :
    keys (EntryRef.pointer name) = "components" :: "schemas" :: keysOfPath name.toList := by
  have hs : '/' ∉ "components".toList ∧ '/' ∉ "schemas".toList := by decide +kernel
  have hread : String.ofList (unescape "components".toList) = "components" ∧
      String.ofList (unescape "schemas".toList) = "schemas" := by decide +kernel
  have hc : "components".toList = 'c' :: "omponents".toList := by decide +kernel
  have hpath : keys (EntryRef.pointer name) =
      keysOfPath ("components".toList ++ '/' :: ("schemas".toList ++ '/' :: name.toList)) := by
    have hl := toList_pointer name
    rw [hc, List.cons_append] at hl ⊢
    exact keys_eq_keysOfPath (by decide) hl
  rw [hpath, keysOfPath, splitChars_append_cons hs.1, splitChars_append_cons hs.2, List.map_cons,
    List.map_cons, hread.1, hread.2, keysOfPath]

theorem keys_pointer_eq_iff {name : String} :
    keys (EntryRef.pointer name) = ["components", "schemas", name] ↔ IsPlain name := by
  rw [keys_pointer, ← keysOfPath_eq_singleton_iff, List.cons_inj_right, List.cons_inj_right]

end Pointer

/-! ## The references of an operation -/

namespace EntryRef

theorem allInMembers_content (type : Option EntryRef) :
    Reference.allInMembers (content type) = type.toList.map fun ref => pointer ref.target := by
  cases type with
  | none => rfl
  | some ref => cases ref <;> rfl

theorem all_append_content (ms : Members) (h : "$ref" ∉ ms.keys) (type : Option EntryRef) :
    Reference.all (.obj (ms ++ content type)) =
      Reference.allInMembers ms ++ type.toList.map fun ref => pointer ref.target := by
  have hcontent : "$ref" ∉ (content type).keys := by
    cases type <;> simp [content]
  rw [Reference.all_obj_of_not_mem, Reference.allInMembers_append, allInMembers_content]
  rw [Members.keys_append, List.mem_append, not_or]
  exact ⟨h, hcontent⟩

end EntryRef

namespace IdParameter

theorem all_toOpenApi (p : IdParameter) : Reference.all p.toOpenApi = [] := rfl

end IdParameter

namespace TrailStep

theorem all_toJson (step : TrailStep) : Reference.all step.toJson = [] := by
  cases step <;> rfl

end TrailStep

namespace Operation

theorem allInMembers_requestBody (op : Operation) :
    Reference.allInMembers op.requestBody =
      (op.request.bind MessageBody.type).toList.map fun ref => EntryRef.pointer ref.target := by
  unfold requestBody
  cases op.request with
  | none => rfl
  | some body =>
    rw [Reference.allInMembers, EntryRef.all_append_content _ (by simp)]
    simp [Reference.allInMembers, Reference.all]

theorem all_responses (op : Operation) :
    Reference.all op.responses =
      op.response.type.toList.map fun ref => EntryRef.pointer ref.target := by
  have hresponse := EntryRef.all_append_content
    [("description", .str op.response.description)] (by simp) op.response.type
  -- Under the status stands an object, so it is no reference whatever the status is.
  rw [responses, Reference.all_obj_eq (Reference.of?_eq_none (by simp [Json.str?]))]
  simpa [Reference.allInMembers, Reference.all] using hresponse

theorem all_toOpenApi (op : Operation) (parameters : List IdParameter) :
    Reference.all (op.toOpenApi parameters) =
      op.refs.map fun ref => EntryRef.pointer ref.target := by
  have hp := Reference.allInItems_map_eq_nil IdParameter.all_toOpenApi parameters
  rw [toOpenApi, Reference.all_obj_eq]
  · simp [Reference.allInMembers_append, Reference.allInMembers, Reference.all, hp,
      allInMembers_requestBody, all_responses, refs]
  · unfold requestBody
    cases op.request <;> rfl

end Operation

namespace Endpoint

variable {e : Endpoint}

theorem ref_not_mem_keys (e : Endpoint) : "$ref" ∉ (e.extensions ++ e.operationItems).keys := by
  have hmethod : ∀ action : ResourceAction, action.httpMethod ≠ "$ref" := by
    intro action
    cases action <;> decide
  rw [Members.keys_append, keys_extensions, keys_operationItems, List.mem_append, not_or]
  refine ⟨by decide, fun h => ?_⟩
  obtain ⟨op, -, he⟩ := List.mem_map.mp h
  exact hmethod op.action he

theorem allInMembers_extensions (e : Endpoint) : Reference.allInMembers e.extensions = [] := by
  have ht := Reference.allInItems_map_eq_nil TrailStep.all_toJson e.trail
  simp [extensions, Reference.allInMembers, Reference.all, ht]

theorem all_toOpenApi (hn : e.methods.Nodup) :
    Reference.all e.toOpenApi =
      e.operations.flatMap fun op => op.refs.map fun ref => EntryRef.pointer ref.target := by
  rw [toOpenApi_eq hn, Reference.all_obj_of_not_mem e.ref_not_mem_keys,
    Reference.allInMembers_append, allInMembers_extensions, List.nil_append, operationItems,
    Reference.allInMembers_map]
  simp only [Operation.all_toOpenApi]

theorem mem_all_toOpenApi_iff (hn : e.methods.Nodup) {name text : String} (hr : e.RefersTo name) :
    text ∈ Reference.all e.toOpenApi ↔ text = EntryRef.pointer name := by
  obtain ⟨⟨op, hop, href⟩, htarget⟩ := hr
  simp only [all_toOpenApi hn, List.mem_flatMap, List.mem_map]
  constructor
  · rintro ⟨op, hop, ref, href, rfl⟩
    rw [htarget op hop ref href]
  · rintro rfl
    obtain ⟨ref, href⟩ := List.exists_mem_of_ne_nil _ href
    exact ⟨op, hop, ref, href, by rw [htarget op hop ref href]⟩

end Endpoint

/-! ## Documents that show an API -/

def Schema.drafts : Schema :=
  let note : Json := .obj [("$id", .str "note"), ("title", .str "Note/Draft"),
    (Schema.controllerKey, .str "notes"), (Schema.seedKey, .str "\x7b\x7d")]
  .obj [("properties", .obj [("notes", .obj [("type", .str "array"), ("items", note)])])]

namespace Api

variable {api : Api} {root : Members} {doc : Json}

/-- The document that an API is rendered as, or one that it has been merged into. -/
inductive ShownIn (api : Api) : Json → Prop where
  | rendered : ShownIn api api.toOpenApi
  | merged {host doc : Json} : api.addTo.run host = (.ok (), doc) → ShownIn api doc

theorem ShownIn.exists_merged (hc : api.Coherent) (h : api.ShownIn doc) :
    ∃ root : Members, api.Mergeable root ∧ doc = .obj (api.merged root) := by
  cases h with
  | rendered =>
    exact ⟨[], api.mergeable_of_not_mem List.not_mem_nil List.not_mem_nil, toOpenApi_eq_merged hc⟩
  | merged h =>
    obtain ⟨root, -, hm, rfl⟩ := exists_of_run_addTo_eq_ok hc h
    exact ⟨root, hm, rfl⟩

theorem Mergeable.point_pointer (hm : api.Mergeable root) {name : String} {entry : Json}
    (he : api.entry? name = some entry) (hp : Pointer.IsPlain name) :
    Reference.point (.obj (api.merged root)) (EntryRef.pointer name) = .ok entry := by
  obtain ⟨components, hcomponents, -, hschemas⟩ := (api.merged_merged root).components
  have hname : name ∈ api.catalog.keys := by
    rw [← Members.isSome_get?_iff]
    exact Option.isSome_of_eq_some he
  have hentry : Members.get? ((root.inner "components").inner "schemas" ++ api.catalog) name =
      some entry := by
    rw [Members.get?_append_of_not_mem (hm.names _ hname)]
    exact he
  have hpointed : (Json.obj (api.merged root)).pointed? (EntryRef.pointer name) = some entry := by
    rw [Json.pointed?, Pointer.keys_pointer_eq_iff.mpr hp]
    simp only [List.foldlM_cons, List.foldlM_nil, Json.childBy?_obj, hcomponents, hschemas,
      Option.bind_eq_bind, Option.bind_some, hentry]
    rfl
  rw [Reference.point, hpointed]

/-- Wherever an API is shown, the path item of an endpoint has one reference, though many times: the
pointer with the name that the entry of its resource has in the catalog. The keys of the pointer are
those of the entry exactly if the name is plain, and then the entry is found there. -/
theorem point_of_references {dispatcher : String} {roots : Roots}
    (h : ofRoots dispatcher roots = .ok api) (hdoc : api.ShownIn doc) {e : Endpoint}
    (he : e ∈ api.endpoints) :
    ∃ root ∈ roots, ∃ hop title name, e.BelongsTo root hop ∧
      hop.node.get? "title" = some (.str title) ∧ name = Mount.qualify ⟨root.baseUrl⟩ title ∧
      api.entry? name = some hop.node.catalogEntry ∧
      (∃ paths, doc.get? "paths" = some (.obj paths) ∧
        Members.get? paths e.url = some e.toOpenApi) ∧
      (∀ text, text ∈ Reference.all e.toOpenApi ↔ text = EntryRef.pointer name) ∧
      (Pointer.keys (EntryRef.pointer name) = ["components", "schemas", name] ↔
        Pointer.IsPlain name) ∧
      (Pointer.IsPlain name →
        Reference.point doc (EntryRef.pointer name) = .ok hop.node.catalogEntry) := by
  have hc := ofRoots_coherent h
  obtain ⟨members, hm, rfl⟩ := hdoc.exists_merged hc
  obtain ⟨root, hroot, hop, title, hbelongs, ht, hrefers, hentry⟩ :=
    exists_resource_of_mem_endpoints h he
  exact ⟨root, hroot, hop, title, _, hbelongs, ht, rfl, hentry, hm.get?_paths hc he,
    fun text => Endpoint.mem_all_toOpenApi_iff (hc.methods e he) hrefers,
    Pointer.keys_pointer_eq_iff, hm.point_pointer hentry⟩

theorem point_of_folders : ∃ api entry, ofRoots "main" [.folders "/v1"] = .ok api ∧
    api.entry? ".v1::Note" = some entry ∧
    Reference.point api.toOpenApi "#/components/schemas/.v1::Note" = .ok entry := by
  have hkeys : (ofRoots "main" [.folders "/v1"]).map (fun api =>
      (api.catalog.keys, api.endpoints.length)) = .ok ([".v1::Note"], 2) := by decide +kernel
  obtain ⟨api, h, hkeys⟩ := map_eq_ok_iff.mp hkeys
  obtain ⟨hkeys, hlength⟩ := Prod.mk.inj hkeys
  obtain ⟨e, he⟩ : ∃ e, e ∈ api.endpoints := List.exists_mem_of_length_pos (by omega)
  obtain ⟨_, _, hop, _, name, _, _, _, hentry, _, _, _, hpoint⟩ :=
    point_of_references h .rendered he
  have hname : name = ".v1::Note" := by
    have hmem : name ∈ api.catalog.keys :=
      Members.isSome_get?_iff.mp (Option.isSome_of_eq_some hentry)
    rw [hkeys] at hmem
    exact List.mem_singleton.mp hmem
  subst hname
  have hplain : Pointer.IsPlain ".v1::Note" :=
    ⟨by decide +kernel, by decide +kernel, by decide +kernel⟩
  exact ⟨api, _, h, hentry, hpoint hplain⟩

theorem point_of_drafts : ∃ api entry, ofRoots "main" [⟨Schema.drafts, ""⟩] = .ok api ∧
    api.entry? "Note/Draft" = some entry ∧ ∃ e ∈ api.endpoints, ∃ text ∈ Reference.all e.toOpenApi,
      Reference.point api.toOpenApi text = .error (.danglingReference text) := by
  let text := "#/components/schemas/Note/Draft"
  have hrun : (ofRoots "main" [⟨Schema.drafts, ""⟩]).map (fun api =>
      (api.entry? "Note/Draft", api.endpoints.any fun e => text ∈ Reference.all e.toOpenApi,
        Reference.point api.toOpenApi text)) =
      .ok (some (.obj [("title", .str "Note/Draft")]), true,
        .error (.danglingReference text)) := by decide +kernel
  obtain ⟨api, h, hrun⟩ := map_eq_ok_iff.mp hrun
  obtain ⟨hentry, hrun⟩ := Prod.mk.inj hrun
  obtain ⟨hany, hpoint⟩ := Prod.mk.inj hrun
  obtain ⟨e, he, htext⟩ := List.any_eq_true.mp hany
  exact ⟨api, _, h, hentry, e, he, text, of_decide_eq_true htext, hpoint⟩

end Api

end SchemaRoutes
