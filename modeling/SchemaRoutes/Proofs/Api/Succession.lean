import SchemaRoutes.Proofs.Api.Merge
import SchemaRoutes.Proofs.Api.Roots

/-! # One API after another

Two APIs are merged one after the other, or compiled into one that is merged. What they have in
common is seen by the second merge in the first case, and by the compilation in the second. Both
come to the same document, since the second merge finds all sections where the first has left them.
-/

namespace SchemaRoutes.Api

open HostDocument Members

variable {a b api part : Api} {dispatcher : String} {parts : List Api} {roots roots' : Roots}
  {root : Members} {doc doc' : Json}

/-! ## Compiling -/

theorem apart_joined_iff : a.Apart (joined dispatcher parts) ↔ ∀ part ∈ parts, a.Apart part := by
  have hu : (joined dispatcher parts).urls = parts.flatMap urls := List.map_flatMap
  have hn : (joined dispatcher parts).catalog.keys = parts.flatMap fun part => part.catalog.keys :=
    List.map_flatMap
  constructor
  · rintro ⟨u, n⟩ part hp
    rw [hu] at u
    rw [hn] at n
    exact ⟨fun url h h' => u h (List.mem_flatMap.mpr ⟨part, hp, h'⟩),
      fun name h h' => n h (List.mem_flatMap.mpr ⟨part, hp, h'⟩)⟩
  · intro h
    refine ⟨fun url hurl hurl' => ?_, fun name hname hname' => ?_⟩
    · obtain ⟨part, hp, hurl'⟩ := List.mem_flatMap.mp (hu ▸ hurl')
      exact (h part hp).urls hurl hurl'
    · obtain ⟨part, hp, hname'⟩ := List.mem_flatMap.mp (hn ▸ hname')
      exact (h part hp).names hname hname'

/-- Roots compile behind others exactly if both compile alone and take nothing twice. -/
theorem ofRoots_append_eq_ok_iff :
    ofRoots dispatcher (roots ++ roots') = .ok api ↔
      ∃ a b, ofRoots dispatcher roots = .ok a ∧ ofRoots dispatcher roots' = .ok b ∧ a.Apart b ∧
        api = a.append b := by
  have hsplit : ofRoots dispatcher (roots ++ roots') = ofRoots dispatcher roots >>= fun a =>
      roots'.foldlM (fun api root => api.mount root.schema root.baseUrl) a := List.foldlM_append
  rw [hsplit, bind_eq_ok_iff]
  refine exists_congr fun a => ?_
  constructor
  · rintro ⟨ha, h⟩
    obtain ⟨parts, halone, hapart, hpair, rfl⟩ := foldlM_mount_eq_ok_iff.mp h
    obtain ⟨_, -, -, rfl⟩ := ofRoots_eq_ok_iff.mp ha
    have hb := ofRoots_eq_ok_iff.mpr ⟨parts, halone, hpair, rfl⟩
    exact ⟨_, ha, hb, apart_joined_iff.mpr hapart, rfl⟩
  · rintro ⟨b, ha, hb, hapart, rfl⟩
    obtain ⟨parts, halone, hpair, rfl⟩ := ofRoots_eq_ok_iff.mp hb
    obtain ⟨_, -, -, rfl⟩ := ofRoots_eq_ok_iff.mp ha
    exact ⟨ha, foldlM_mount_eq_ok_iff.mpr
      ⟨parts, halone, apart_joined_iff.mp hapart, hpair, rfl⟩⟩

/-! ## Merging -/

theorem inner_paths_merged : (a.merged root).inner "paths" = root.inner "paths" ++ a.pathItems := by
  rw [merged, inner_insert_of_ne (by decide), inner_insert_self]

theorem inner_components_merged :
    (a.merged root).inner "components" = a.mergedComponents root := by
  rw [merged, inner_insert_self]

theorem inner_schemas_mergedComponents :
    (a.mergedComponents root).inner "schemas" =
      (root.inner "components").inner "schemas" ++ a.catalog := by
  rw [mergedComponents, inner_insert_self]

/-- A document with the one API can take the other in exactly if it could before and the two have
nothing in common. -/
theorem mergeable_merged_iff (ha : a.Mergeable root) :
    b.Mergeable (a.merged root) ↔ b.Mergeable root ∧ a.Apart b := by
  constructor
  · rintro ⟨-, -, -, hu, hn⟩
    rw [inner_paths_merged, keys_append, keys_pathItems] at hu
    rw [inner_components_merged, inner_schemas_mergedComponents, keys_append] at hn
    refine ⟨⟨ha.paths, ha.components, ha.schemas, ?_, ?_⟩, ?_, ?_⟩
    · exact fun url h h' => hu url h (List.mem_append_left _ h')
    · exact fun name h h' => hn name h (List.mem_append_left _ h')
    · exact fun url h h' => hu url h' (List.mem_append_right _ h)
    · exact fun name h h' => hn name h' (List.mem_append_right _ h)
  · rintro ⟨hb, hapart⟩
    refine ⟨?_, isSection_insert_self, ?_, ?_, ?_⟩
    · exact (isSection_insert_of_ne (by decide)).mpr isSection_insert_self
    · rw [inner_components_merged]
      exact isSection_insert_self
    · intro url h
      rw [inner_paths_merged, keys_append, keys_pathItems, List.mem_append, not_or]
      exact ⟨hb.urls url h, fun h' => hapart.urls h' h⟩
    · intro name h
      rw [inner_components_merged, inner_schemas_mergedComponents, keys_append, List.mem_append,
        not_or]
      exact ⟨hb.names name h, fun h' => hapart.names h' h⟩

theorem mergeable_append_iff :
    (a.append b).Mergeable root ↔ a.Mergeable root ∧ b.Mergeable root := by
  have hu : (a.append b).urls = a.urls ++ b.urls := List.map_append
  have hn : (a.append b).catalog.keys = a.catalog.keys ++ b.catalog.keys := keys_append
  constructor
  · rintro ⟨hp, hc, hs, u, n⟩
    rw [hu, List.forall_mem_append] at u
    rw [hn, List.forall_mem_append] at n
    exact ⟨⟨hp, hc, hs, u.1, n.1⟩, ⟨hp, hc, hs, u.2, n.2⟩⟩
  · rintro ⟨ha, hb⟩
    refine ⟨ha.paths, ha.components, ha.schemas, ?_, ?_⟩
    · rw [hu]
      exact List.forall_mem_append.mpr ⟨ha.urls, hb.urls⟩
    · rw [hn]
      exact List.forall_mem_append.mpr ⟨ha.names, hb.names⟩

theorem merged_append : (a.append b).merged root = b.merged (a.merged root) := by
  have hitems : (a.append b).pathItems = a.pathItems ++ b.pathItems := List.map_append
  have hcomponents : b.mergedComponents (a.merged root) = (a.append b).mergedComponents root := by
    rw [mergedComponents, inner_components_merged, inner_schemas_mergedComponents]
    simp only [mergedComponents, insert_insert_self, append, List.append_assoc]
  -- The paths stand in front of the components, which have been inserted since.
  have hmoved : ∀ paths : Json, (a.merged root).insert "paths" paths =
      (root.insert "paths" paths).insert "components" (.obj (a.mergedComponents root)) := by
    intro paths
    rw [merged, insert_comm_of_mem mem_keys_insert_self (by decide), insert_insert_self]
  calc (a.append b).merged root
      = (root.insert "paths" (.obj (root.inner "paths" ++ (a.pathItems ++ b.pathItems)))).insert
          "components" (.obj ((a.append b).mergedComponents root)) := by rw [merged, hitems]
    _ = ((a.merged root).insert "paths"
          (.obj ((a.merged root).inner "paths" ++ b.pathItems))).insert
          "components" (.obj (b.mergedComponents (a.merged root))) := by
        rw [hmoved, insert_insert_self, inner_paths_merged, hcomponents, List.append_assoc]
    _ = b.merged (a.merged root) := rfl

/-- Two APIs are merged one after the other exactly if they have nothing in common and can be merged
as one, and the document is the same then. -/
theorem exists_run_addTo_iff (ha : a.Coherent) (hb : b.Coherent) :
    (∃ mid, a.addTo.run doc = (.ok (), mid) ∧ b.addTo.run mid = (.ok (), doc')) ↔
      a.Apart b ∧ ∃ root : Members, doc = .obj root ∧ (a.append b).Mergeable root ∧
        doc' = .obj ((a.append b).merged root) := by
  constructor
  · rintro ⟨mid, h, h'⟩
    obtain ⟨root, rfl, hma, rfl⟩ := exists_of_run_addTo_eq_ok ha h
    obtain ⟨_, he, hmb, rfl⟩ := exists_of_run_addTo_eq_ok hb h'
    cases he
    obtain ⟨hmb, hapart⟩ := (mergeable_merged_iff hma).mp hmb
    exact ⟨hapart, root, rfl, mergeable_append_iff.mpr ⟨hma, hmb⟩, by rw [merged_append]⟩
  · rintro ⟨hapart, root, rfl, hm, rfl⟩
    obtain ⟨hma, hmb⟩ := mergeable_append_iff.mp hm
    refine ⟨.obj (a.merged root), run_addTo_of_mergeable ha hma, ?_⟩
    rw [merged_append]
    exact run_addTo_of_mergeable hb ((mergeable_merged_iff hma).mpr ⟨hmb, hapart⟩)

/-! ## Merging again -/

/-- Whatever the API has is taken once it has been merged. -/
theorem not_mergeable_merged (h : api.endpoints ≠ [] ∨ api.catalog ≠ []) :
    ¬ api.Mergeable (api.merged root) := by
  rintro ⟨-, -, -, hu, hn⟩
  rw [inner_paths_merged, keys_append, keys_pathItems] at hu
  rw [inner_components_merged, inner_schemas_mergedComponents, keys_append] at hn
  rcases h with h | h
  · obtain ⟨e, he⟩ := List.exists_mem_of_ne_nil _ h
    have hurl : e.url ∈ api.urls := List.mem_map_of_mem he
    exact hu e.url hurl (List.mem_append_right _ hurl)
  · obtain ⟨m, hm⟩ := List.exists_mem_of_ne_nil _ h
    exact hn m.1 (mem_keys hm) (List.mem_append_right _ (mem_keys hm))

theorem run_addTo_again (hc : api.Coherent) (h : api.addTo.run doc = (.ok (), doc')) :
    ((api.endpoints ≠ [] ∨ api.catalog ≠ []) → ∃ e, api.addTo.run doc' = (.error e, doc')) ∧
      (api.endpoints = [] → api.catalog = [] → api.addTo.run doc' = (.ok (), doc')) := by
  obtain ⟨root, rfl, hm, rfl⟩ := exists_of_run_addTo_eq_ok hc h
  constructor
  · intro hsome
    refine run_addTo_of_not_mergeable ?_
    rintro ⟨_, he, hm'⟩
    cases he
    exact not_mergeable_merged hsome hm'
  · intro he hcat
    have hself : api.append api = api := by
      obtain ⟨dispatcher, endpoints, catalog⟩ := api
      obtain rfl : endpoints = [] := he
      obtain rfl : catalog = [] := hcat
      rfl
    have hapart : api.Apart api := by
      refine ⟨?_, ?_⟩
      · rw [urls, he]
        exact List.disjoint_nil_left _
      · rw [hcat]
        exact List.disjoint_nil_left _
    have hm' : api.Mergeable (api.merged root) := (mergeable_merged_iff hm).mpr ⟨hm, hapart⟩
    rw [run_addTo_of_mergeable hc hm', ← merged_append, hself]

/-- Compiling roots behind others and merging the result succeeds exactly if both compile alone and
their results can be merged one after the other, and the document is the same then. What has been
merged cannot be merged a second time, unless there is nothing in it; in neither case does the
document change. -/
theorem addTo_of_append (dispatcher : String) (roots roots' : Roots) (doc doc' : Json) :
    ((∃ api, ofRoots dispatcher (roots ++ roots') = .ok api ∧
        api.addTo.run doc = (.ok (), doc')) ↔
      ∃ a b mid, ofRoots dispatcher roots = .ok a ∧ ofRoots dispatcher roots' = .ok b ∧
        a.addTo.run doc = (.ok (), mid) ∧ b.addTo.run mid = (.ok (), doc')) ∧
    ∀ api, ofRoots dispatcher roots = .ok api → api.addTo.run doc = (.ok (), doc') →
      ((api.endpoints ≠ [] ∨ api.catalog ≠ []) → ∃ e, api.addTo.run doc' = (.error e, doc')) ∧
      (api.endpoints = [] → api.catalog = [] → api.addTo.run doc' = (.ok (), doc')) := by
  refine ⟨?_, fun api h => run_addTo_again (ofRoots_coherent h)⟩
  constructor
  · rintro ⟨api, h, hrun⟩
    obtain ⟨a, b, ha, hb, hapart, rfl⟩ := ofRoots_append_eq_ok_iff.mp h
    have hmerged := exists_of_run_addTo_eq_ok (ofRoots_coherent h) hrun
    obtain ⟨mid, hmid, hrun⟩ :=
      (exists_run_addTo_iff (ofRoots_coherent ha) (ofRoots_coherent hb)).mpr ⟨hapart, hmerged⟩
    exact ⟨a, b, mid, ha, hb, hmid, hrun⟩
  · rintro ⟨a, b, mid, ha, hb, hmid, hrun⟩
    obtain ⟨hapart, root, rfl, hm, rfl⟩ :=
      (exists_run_addTo_iff (ofRoots_coherent ha) (ofRoots_coherent hb)).mp ⟨mid, hmid, hrun⟩
    have h : ofRoots dispatcher (roots ++ roots') = .ok (a.append b) :=
      ofRoots_append_eq_ok_iff.mpr ⟨a, b, ha, hb, hapart, rfl⟩
    exact ⟨_, h, run_addTo_of_mergeable (ofRoots_coherent h) hm⟩

end SchemaRoutes.Api
