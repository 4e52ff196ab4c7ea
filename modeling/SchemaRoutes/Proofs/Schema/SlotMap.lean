import SchemaRoutes.Proofs.Schema.Slot

/-! # Sub-schemas replaced where they stand

To empty a node and to fill all its slots again is to replace every sub-schema in place. So what
stands in a slot afterwards has been put there for what stood in the same slot before.
-/

namespace SchemaRoutes

namespace Slot

theorem exists_mem_numbered (slot : ℕ → Slot) (n : ℕ) {xs : List Json} {x : Json} (h : x ∈ xs) :
    ∃ i, (slot i, x) ∈ numbered slot n xs := by
  induction h generalizing n with
  | head => exact ⟨n, .head _⟩
  | tail _ _ ih =>
    obtain ⟨i, hi⟩ := ih (n + 1)
    exact ⟨i, .tail _ hi⟩

/-- Where the slot makes no difference, its number is not needed. -/
theorem map_numbered {slot : ℕ → Slot} {g : Slot → Json → Json} {f : Json → Json}
    (h : ∀ i x, g (slot i) x = f x) (n : ℕ) (xs : List Json) :
    ((numbered slot n xs).map fun c => g c.1 c.2) = xs.map f := by
  induction xs generalizing n with
  | nil => rfl
  | cons x xs ih => simp [numbered, ih (n + 1), h]

theorem exists_of_mem_map_numbered {slot : ℕ → Slot} {g : Slot → Json → Json} {n : ℕ}
    {xs : List Json} {c : Slot × Json}
    (hc : c ∈ numbered slot n ((numbered slot n xs).map fun c => g c.1 c.2)) :
    ∃ x, (c.1, x) ∈ numbered slot n xs ∧ c.2 = g c.1 x := by
  induction xs generalizing n with
  | nil => cases hc
  | cons x xs ih =>
    rcases List.mem_cons.mp hc with rfl | hc
    · exact ⟨x, .head _, rfl⟩
    · obtain ⟨y, hy, he⟩ := ih hc
      exact ⟨y, .tail _ hy, he⟩

/-- What stands in the slots of a changed value has been put there for what stood in them before. -/
theorem mem_under_mapUnder {g : Slot → Json → Json}
    (hg : ∀ slot ms, ∃ ns : Members, g slot (.obj ms) = .obj ns) {keyword : String}
    {layout : Layout} {value : Json} {c : Slot × Json}
    (hc : c ∈ under keyword layout (mapUnder g keyword layout value)) :
    ∃ x, (c.1, x) ∈ under keyword layout value ∧ c.2 = g c.1 x := by
  cases layout <;> cases value
  all_goals try cases hc
  case properties.obj ms | entries.obj ms =>
    simp only [under, mapUnder, List.map_map, List.mem_map] at hc ⊢
    obtain ⟨m, hm, rfl⟩ := hc
    exact ⟨m.2, ⟨m, hm, rfl⟩, rfl⟩
  case objectEntries.obj ms =>
    simp only [under, mapUnder, List.mem_map, List.mem_filter] at hc ⊢
    obtain ⟨_, ⟨⟨m, hm, rfl⟩, ho⟩, rfl⟩ := hc
    by_cases hobject : m.2.isObject = true
    · exact ⟨m.2, ⟨m, ⟨hm, hobject⟩, rfl⟩, if_pos hobject⟩
    · rw [if_neg hobject] at ho
      exact absurd ho hobject
  case items.obj ms =>
    obtain ⟨ns, hns⟩ := hg items ms
    simp only [under, mapUnder, hns] at hc ⊢
    cases List.mem_singleton.mp hc
    exact ⟨_, .head _, hns.symm⟩
  case single.obj ms =>
    obtain ⟨ns, hns⟩ := hg (single keyword) ms
    simp only [under, mapUnder, hns] at hc ⊢
    cases List.mem_singleton.mp hc
    exact ⟨_, .head _, hns.symm⟩
  case items.arr xs | branches.arr xs => exact exists_of_mem_map_numbered hc

theorem mapUnder_congr {f g : Slot → Json → Json} {keyword : String} {layout : Layout}
    {value : Json} (h : ∀ c ∈ under keyword layout value, f c.1 c.2 = g c.1 c.2) :
    mapUnder f keyword layout value = mapUnder g keyword layout value := by
  cases layout <;> cases value
  all_goals try rfl
  case properties.obj ms | entries.obj ms =>
    simp only [under, List.forall_mem_map] at h
    simpa [mapUnder] using fun a b hm => h (a, b) hm
  case objectEntries.obj ms =>
    simp only [under, List.forall_mem_map, List.mem_filter] at h
    simp only [mapUnder, Json.obj.injEq]
    refine List.map_congr_left fun m hm => ?_
    split
    · next ho => rw [h m ⟨hm, ho⟩]
    · rfl
  case items.obj ms | single.obj ms => exact h _ (List.mem_singleton.mpr rfl)
  case items.arr xs | branches.arr xs => exact congrArg Json.arr (List.map_congr_left h)

end Slot

namespace Members

variable {node : Members}

def mapSlots (node : Members) (g : Slot → Json → Json) : Members :=
  node.map fun m => (m.1, match Slot.keywords.lookup m.1 with
    | some layout => Slot.mapUnder g m.1 layout m.2
    | none => m.2)

@[simp] theorem keys_mapSlots (node : Members) (g : Slot → Json → Json) :
    (node.mapSlots g).keys = node.keys := by simp [mapSlots, keys, Function.comp_def]

theorem get?_mapSlots (node : Members) (g : Slot → Json → Json) (key : String) :
    (node.mapSlots g).get? key = (node.get? key).map fun value =>
      match Slot.keywords.lookup key with
      | some layout => Slot.mapUnder g key layout value
      | none => value :=
  get?_map (fun key value => match Slot.keywords.lookup key with
    | some layout => Slot.mapUnder g key layout value
    | none => value) node key

/-- To empty a node and to fill all its slots again is to replace its sub-schemas in place. -/
theorem refilled_eq_mapSlots (h : (Json.obj node).WellFormed) (g : Slot → Json → Json) :
    node.refilled g = node.mapSlots g := by
  have hn : node.keys.Nodup := h.keys_nodup
  refine ext_get? (by simp) (by simpa using hn) fun key hkey => ?_
  rw [keys_refilled, ← isSome_get?_iff] at hkey
  obtain ⟨value, hv⟩ := Option.isSome_iff_exists.mp hkey
  rw [get?_mapSlots, hv, Option.map_some]
  cases hl : Slot.keywords.lookup key with
  | none => rw [get?_refilled_of_lookup_eq_none hl, hv]
  | some layout =>
    have hvalue : value.WellFormed := Json.WellFormed.of_get? h hv
    exact get?_refilled_of_nodup (Slot.mem_keywords_of_lookup hl) hv hvalue.members.keys_nodup g

theorem mapSlots_congr (hn : node.keys.Nodup) {f g : Slot → Json → Json}
    (h : ∀ c ∈ node.children, f c.1 c.2 = g c.1 c.2) : node.mapSlots f = node.mapSlots g := by
  refine List.map_congr_left fun m hm => ?_
  cases hl : Slot.keywords.lookup m.1 with
  | none => rfl
  | some layout =>
    have hv : node.get? m.1 = some m.2 := get?_of_mem hn hm
    congr 1
    refine Slot.mapUnder_congr fun c hc => h c ?_
    exact mem_children_iff.mpr ⟨_, Slot.mem_keywords_of_lookup hl, m.2, hv, hc⟩

end Members

end SchemaRoutes
