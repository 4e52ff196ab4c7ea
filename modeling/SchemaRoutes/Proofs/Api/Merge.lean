import SchemaRoutes.Proofs.Api.OpenApi
import SchemaRoutes.Proofs.Json.Pointer

/-! # Merging is atomic

The checks look for sections, URLs and names through pointers; what is inserted goes under the keys
themselves. As pointers lead back to their keys, an insertion finds nothing that the checks have
not seen, so a merge fails before it changes anything or not at all.
-/

namespace SchemaRoutes

namespace Edit

variable {α : Type} {doc : Json}

theorem run_get : (get : Edit Json).run doc = (.ok doc, doc) := rfl

theorem run_ofExcept {x y : Except CompileError α} (h : x = y) :
    (ofExcept x).run doc = (y, doc) := by
  subst h
  cases x <;> rfl

end Edit

namespace HostDocument

open Json

variable {key k : String} {keys : List String} {root ms : Members}

theorem foldlM_childBy?_cons {index? : String → Option ℕ} (h : root.IsSection key) :
    (key :: k :: keys).foldlM (childBy? index?) (obj root) =
      (k :: keys).foldlM (childBy? index?) (obj (root.inner key)) := by
  rw [List.foldlM_cons, childBy?_obj, Members.inner]
  rcases h with h | ⟨ms, h⟩ <;> rw [h] <;> rfl

theorem atPointer?_single : (obj root).atPointer? (Pointer.ofKeys [key]) = root.get? key := by
  rw [atPointer?_ofKeys, List.foldlM_cons, childBy?_obj]
  cases root.get? key <;> rfl

theorem atPointer?_cons (h : root.IsSection key) :
    (obj root).atPointer? (Pointer.ofKeys (key :: k :: keys)) =
      (obj (root.inner key)).atPointer? (Pointer.ofKeys (k :: keys)) := by
  rw [atPointer?_ofKeys, foldlM_childBy?_cons h, atPointer?_ofKeys]

theorem checkObject_eq_ok_iff {doc : Json} {pointer : String} :
    checkObject doc pointer = .ok () ↔
      doc.atPointer? pointer = none ∨ ∃ ms, doc.atPointer? pointer = some (.obj ms) := by
  unfold checkObject
  split <;> simp_all

theorem checkShape_eq_ok_iff {doc : Json} :
    checkShape doc = .ok () ↔ ∃ root : Members, doc = .obj root ∧ root.IsSection "paths" ∧
      root.IsSection "components" ∧ (root.inner "components").IsSection "schemas" := by
  have hs : sections =
      [[], ["paths"], ["components"], ["components", "schemas"]].map Pointer.ofKeys := rfl
  simp only [checkShape, forM_eq_ok_iff, hs, List.forall_mem_map, List.forall_mem_cons,
    checkObject_eq_ok_iff]
  constructor
  · rintro ⟨hroot, hpaths, hcomponents, hschemas, -⟩
    rw [atPointer?_ofKeys] at hroot
    rcases hroot with hroot | ⟨root, hroot⟩
    · cases hroot
    · cases hroot
      rw [atPointer?_single] at hpaths hcomponents
      rw [atPointer?_cons hcomponents, atPointer?_single] at hschemas
      exact ⟨root, rfl, hpaths, hcomponents, hschemas⟩
  · rintro ⟨root, rfl, hpaths, hcomponents, hschemas⟩
    rw [atPointer?_cons hcomponents, atPointer?_single, atPointer?_single, atPointer?_single]
    exact ⟨.inr ⟨root, rfl⟩, hpaths, hcomponents, hschemas, nofun⟩

theorem within_eq {change : Members → Except CompileError Members} {ms' : Members}
    (h : root.IsSection key) (hc : change (root.inner key) = .ok ms') :
    within key change root = .ok (root.insert key (.obj ms')) := by
  rw [within, h.getD_eq]
  simp only [hc, Except.map]

theorem run_editRoot {change : Members → Except CompileError Members} {ms' : Members}
    (h : change root = .ok ms') : (editRoot change).run (.obj root) = (.ok (), .obj ms') := by
  rw [editRoot, run_bind_of_ok Edit.run_get]
  simp only [h]
  rfl

end HostDocument

namespace Api

open HostDocument Members

variable {api : Api} {root : Members} {doc doc' : Json}

def pathItems (api : Api) : Members :=
  api.endpoints.map fun e => (e.url, .obj (e.extensions ++ e.operationItems))

theorem keys_pathItems : api.pathItems.keys = api.urls := by
  simp [pathItems, Members.keys, urls]

/-- The sections are objects where there are any, and what would be added is not there yet. -/
structure Mergeable (api : Api) (root : Members) : Prop where
  paths : root.IsSection "paths"
  components : root.IsSection "components"
  schemas : (root.inner "components").IsSection "schemas"
  urls : ∀ url ∈ api.urls, url ∉ (root.inner "paths").keys
  names : ∀ name ∈ api.catalog.keys, name ∉ ((root.inner "components").inner "schemas").keys

/-- Path items and catalog entries are behind those that the document had. Nothing else is changed,
and sections that were missing are behind all others. -/
structure Merged (api : Api) (root root' : Members) : Prop where
  rest : ChangedAt ["paths", "components"] root root'
  paths : root'.get? "paths" = some (.obj (root.inner "paths" ++ api.pathItems))
  components : ∃ components : Members, root'.get? "components" = some (.obj components) ∧
    ChangedAt ["schemas"] (root.inner "components") components ∧
    components.get? "schemas" =
      some (.obj ((root.inner "components").inner "schemas" ++ api.catalog))

theorem checkUrls_eq_ok_iff (h : root.IsSection "paths") :
    api.checkUrls (.obj root) = .ok () ↔ ∀ url ∈ api.urls, url ∉ (root.inner "paths").keys := by
  rw [checkUrls, forM_eq_ok_iff, urls, List.forall_mem_map]
  refine forall₂_congr fun e _ => ?_
  rw [atPointer?_cons h, atPointer?_single, ← isSome_get?_iff]
  split <;> simp_all

theorem checkNames_eq_ok_iff (h : root.IsSection "components")
    (h' : (root.inner "components").IsSection "schemas") :
    api.checkNames (.obj root) = .ok () ↔
      ∀ name ∈ api.catalog.keys, name ∉ ((root.inner "components").inner "schemas").keys := by
  rw [checkNames, forM_eq_ok_iff]
  refine forall₂_congr fun name _ => ?_
  rw [atPointer?_cons h, atPointer?_cons h', atPointer?_single, ← isSome_get?_iff]
  split <;> simp_all

theorem insertPaths_eq_extend (hc : api.Coherent) (ms : Members) :
    api.insertPaths ms = ms.extend api.pathItems := by
  have hitems : api.pathItems = api.endpoints.map fun e => (e.url, e.toOpenApi) :=
    List.map_congr_left fun e he => by rw [Endpoint.toOpenApi_eq (hc.methods e he)]
  rw [insertPaths, Members.extend, hitems, List.foldl_map]

def mergedComponents (api : Api) (root : Members) : Members :=
  let components := root.inner "components"
  components.insert "schemas" (.obj (components.inner "schemas" ++ api.catalog))

def merged (api : Api) (root : Members) : Members :=
  (root.insert "paths" (.obj (root.inner "paths" ++ api.pathItems))).insert "components"
    (.obj (api.mergedComponents root))

theorem merged_merged (api : Api) (root : Members) : api.Merged root (api.merged root) where
  rest := ((ChangedAt.refl root).insert (by simp)).insert (by decide)
  paths := by rw [merged, get?_insert_of_ne (by decide), get?_insert_self]
  components := by
    refine ⟨api.mergedComponents root, ?_, (ChangedAt.refl _).insert (by simp), ?_⟩
    · rw [merged, get?_insert_self]
    · rw [mergedComponents, get?_insert_self]

theorem mergeable_of_not_mem (api : Api) (hp : "paths" ∉ root.keys)
    (hc : "components" ∉ root.keys) : api.Mergeable root where
  paths := .inl (get?_eq_none_iff.mpr hp)
  components := .inl (get?_eq_none_iff.mpr hc)
  schemas := by
    rw [inner_of_not_mem hc]
    exact .inl rfl
  urls _ _ := by
    rw [inner_of_not_mem hp]
    exact List.not_mem_nil
  names _ _ := by
    rw [inner_of_not_mem hc]
    exact List.not_mem_nil

theorem insertPaths_nil (hc : api.Coherent) : api.insertPaths [] = api.pathItems := by
  rw [insertPaths_eq_extend hc,
    extend_of_fresh (keys_pathItems ▸ hc.urls) fun _ _ => List.not_mem_nil]
  rfl

/-- What is rendered is what an empty document becomes. -/
theorem toOpenApi_eq_merged (hc : api.Coherent) : api.toOpenApi = .obj (api.merged []) := by
  rw [toOpenApi, insertPaths_nil hc]
  rfl

theorem Mergeable.get?_paths (hc : api.Coherent) (hm : api.Mergeable root) {e : Endpoint}
    (he : e ∈ api.endpoints) :
    ∃ paths, (Json.obj (api.merged root)).get? "paths" = some (.obj paths) ∧
      Members.get? paths e.url = some e.toOpenApi := by
  refine ⟨_, (api.merged_merged root).paths, ?_⟩
  have hurl : e.url ∈ api.urls := List.mem_map_of_mem he
  rw [get?_append_of_not_mem (hm.urls _ hurl), Endpoint.toOpenApi_eq (hc.methods e he)]
  exact get?_of_mem (keys_pathItems ▸ hc.urls) (List.mem_map_of_mem he)

theorem checks_eq_ok_iff :
    (checkShape doc = .ok () ∧ api.checkUrls doc = .ok () ∧ api.checkNames doc = .ok ()) ↔
      ∃ root : Members, doc = .obj root ∧ api.Mergeable root := by
  rw [checkShape_eq_ok_iff]
  constructor
  · rintro ⟨⟨root, rfl, hpaths, hcomponents, hschemas⟩, hu, hn⟩
    rw [checkUrls_eq_ok_iff hpaths] at hu
    rw [checkNames_eq_ok_iff hcomponents hschemas] at hn
    exact ⟨root, rfl, hpaths, hcomponents, hschemas, hu, hn⟩
  · rintro ⟨root, rfl, hm⟩
    refine ⟨⟨root, rfl, hm.paths, hm.components, hm.schemas⟩, ?_, ?_⟩
    · exact (checkUrls_eq_ok_iff hm.paths).mpr hm.urls
    · exact (checkNames_eq_ok_iff hm.components hm.schemas).mpr hm.names

theorem within_paths (hc : api.Coherent) (hm : api.Mergeable root) :
    within "paths" (fun ms => .ok (api.insertPaths ms)) root =
      .ok (root.insert "paths" (.obj (root.inner "paths" ++ api.pathItems))) := by
  refine within_eq hm.paths ?_
  rw [insertPaths_eq_extend hc,
    extend_of_fresh (keys_pathItems ▸ hc.urls) (keys_pathItems ▸ hm.urls)]

theorem within_components (hc : api.Coherent) (hm : api.Mergeable root) {paths : Json} :
    within "components" (within "schemas" fun ms => .ok (ms.extend api.catalog))
        (root.insert "paths" paths) =
      .ok ((root.insert "paths" paths).insert "components" (.obj (api.mergedComponents root))) := by
  refine within_eq ((isSection_insert_of_ne (by decide)).mpr hm.components) ?_
  rw [inner_insert_of_ne (by decide)]
  refine within_eq hm.schemas ?_
  rw [extend_of_fresh hc.names hm.names]

theorem run_addTo_of_mergeable (hc : api.Coherent) (hm : api.Mergeable root) :
    api.addTo.run (.obj root) = (.ok (), .obj (api.merged root)) := by
  obtain ⟨hs, hu, hn⟩ := checks_eq_ok_iff.mpr ⟨root, rfl, hm⟩
  rw [addTo, run_bind_of_ok Edit.run_get,
    run_bind_of_ok (Edit.run_ofExcept hs), run_bind_of_ok (Edit.run_ofExcept hu),
    run_bind_of_ok (Edit.run_ofExcept hn),
    run_bind_of_ok (run_editRoot (within_paths hc hm))]
  exact run_editRoot (within_components hc hm)

/-- A merge that does not get past the checks has not changed the document. -/
theorem run_addTo_of_not_mergeable (h : ¬ ∃ root : Members, doc = .obj root ∧ api.Mergeable root) :
    ∃ e, api.addTo.run doc = (.error e, doc) := by
  rw [addTo, run_bind_of_ok Edit.run_get]
  cases hs : checkShape doc with
  | error e => exact ⟨e, run_bind_of_error (Edit.run_ofExcept rfl)⟩
  | ok =>
    rw [run_bind_of_ok (Edit.run_ofExcept rfl)]
    cases hu : api.checkUrls doc with
    | error e => exact ⟨e, run_bind_of_error (Edit.run_ofExcept rfl)⟩
    | ok =>
      rw [run_bind_of_ok (Edit.run_ofExcept rfl)]
      cases hn : api.checkNames doc with
      | error e => exact ⟨e, run_bind_of_error (Edit.run_ofExcept rfl)⟩
      | ok => exact absurd (checks_eq_ok_iff.mp ⟨hs, hu, hn⟩) h

theorem exists_of_run_addTo_eq_ok (hc : api.Coherent) (h : api.addTo.run doc = (.ok (), doc')) :
    ∃ root : Members, doc = .obj root ∧ api.Mergeable root ∧ doc' = .obj (api.merged root) := by
  by_cases hm : ∃ root : Members, doc = .obj root ∧ api.Mergeable root
  · obtain ⟨root, rfl, hroot⟩ := hm
    rw [run_addTo_of_mergeable hc hroot] at h
    cases h
    exact ⟨root, rfl, hroot, rfl⟩
  · obtain ⟨e, he⟩ := run_addTo_of_not_mergeable hm
    cases he.symm.trans h

theorem eq_of_run_addTo_eq_error {e : CompileError} (hc : api.Coherent)
    (h : api.addTo.run doc = (.error e, doc')) : doc' = doc := by
  by_cases hm : ∃ root : Members, doc = .obj root ∧ api.Mergeable root
  · obtain ⟨root, rfl, hroot⟩ := hm
    rw [run_addTo_of_mergeable hc hroot] at h
    cases h
  · obtain ⟨e', he⟩ := run_addTo_of_not_mergeable hm
    rw [he] at h
    cases h
    rfl

/-- A merge succeeds exactly if the document can take the API in. Then it adds the API and keeps
everything else in its place; otherwise it changes nothing. -/
theorem addTo_outcome {dispatcher : String} {roots : Roots} (h : ofRoots dispatcher roots = .ok api)
    (doc : Json) :
    ((∃ doc', api.addTo.run doc = (.ok (), doc')) ↔
        ∃ root : Members, doc = .obj root ∧ api.Mergeable root) ∧
      (∀ e doc', api.addTo.run doc = (.error e, doc') → doc' = doc) ∧
      ∀ doc', api.addTo.run doc = (.ok (), doc') →
        ∃ root root' : Members, doc = .obj root ∧ doc' = .obj root' ∧ api.Merged root root' := by
  by_cases hm : ∃ root : Members, doc = .obj root ∧ api.Mergeable root
  · obtain ⟨root, rfl, hroot⟩ := hm
    rw [run_addTo_of_mergeable (ofRoots_coherent h) hroot]
    refine ⟨⟨fun _ => ⟨root, rfl, hroot⟩, fun _ => ⟨_, rfl⟩⟩, nofun, ?_⟩
    rintro _ ⟨⟩
    exact ⟨root, _, rfl, rfl, api.merged_merged root⟩
  · obtain ⟨e, he⟩ := run_addTo_of_not_mergeable hm
    rw [he]
    refine ⟨⟨nofun, fun h => absurd h hm⟩, ?_, nofun⟩
    rintro _ _ ⟨⟩
    rfl

theorem addTo_folders : ∃ api root', ofRoots "main" [⟨Schema.folders, "/v1"⟩] = .ok api ∧
    api.addTo.run (.obj [("paths", .obj [("/", .null)])]) = (.ok (), .obj root') ∧
    api.Merged [("paths", .obj [("/", .null)])] root' := by
  obtain ⟨api, h, hu⟩ : ∃ api, ofRoots "main" [⟨Schema.folders, "/v1"⟩] = .ok api ∧
    "/" ∉ api.urls := ⟨_, rfl, by decide +kernel⟩
  have hm : api.Mergeable [("paths", .obj [("/", .null)])] := by
    refine ⟨.inr ⟨_, rfl⟩, .inl rfl, .inl rfl, ?_, nofun⟩
    intro url hurl hroot
    have : url = "/" := List.mem_singleton.mp hroot
    exact hu (this ▸ hurl)
  obtain ⟨hok, -, hmerged⟩ := addTo_outcome h (.obj [("paths", .obj [("/", .null)])])
  obtain ⟨doc', hrun⟩ := hok.mpr ⟨_, rfl, hm⟩
  obtain ⟨_, root', hroot, rfl, hr⟩ := hmerged doc' hrun
  cases hroot
  exact ⟨api, root', h, hrun, hr⟩

end Api

end SchemaRoutes
