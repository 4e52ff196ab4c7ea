import Mathlib.Data.Nat.Init
import SchemaRoutes.Proofs.Schema.SlotMap
import SchemaRoutes.Proofs.Schema.Traversal

/-! # Slots filled in any order

The slots of a node stand apart: two of them are under different keywords, or under different names
or at different indices of one value. So it makes no difference in which order they are filled, and
a traversal that puts back what it took out changes nothing.
-/

namespace SchemaRoutes

namespace Members

variable {ms : Members} {key k : String} {f g : Json → Json}

theorem replace_comm (ms : Members) (h : key ≠ k) (f g : Json → Json) :
    (ms.replace key f).replace k g = (ms.replace k g).replace key f := by
  induction ms with
  | nil => rfl
  | cons m ms ih =>
    obtain ⟨l, v⟩ := m
    by_cases hl : l = key
    · subst hl
      simp [replace_cons, h]
    · by_cases hk : l = k
      · subst hk
        simp [replace_cons, hl]
      · simp [replace_cons, hl, hk, ih]

theorem replace_replace (ms : Members) (key : String) (f g : Json → Json) :
    (ms.replace key f).replace key g = ms.replace key (g ∘ f) := by
  induction ms with
  | nil => rfl
  | cons m ms ih =>
    obtain ⟨l, v⟩ := m
    by_cases hl : l = key <;> simp [replace_cons, hl, ih]

end Members

namespace Json

theorem fillMember_comm {name name' : String} (h : name ≠ name') (x y j : Json) :
    fillMember name x (fillMember name' y j) = fillMember name' y (fillMember name x j) := by
  cases j with
  | obj ms => simp only [fillMember, Members.replace_comm ms h]
  | _ => rfl

theorem fillItem_comm {i i' : ℕ} (h : i ≠ i') (x y j : Json) :
    fillItem i x (fillItem i' y j) = fillItem i' y (fillItem i x j) := by
  cases j with
  | arr xs => simp only [fillItem, List.set_comm _ _ h]
  | _ => rfl

end Json

namespace Slot

theorem map_fst_numbered (slot : ℕ → Slot) (n : ℕ) (xs : List Json) :
    (numbered slot n xs).map Prod.fst = (List.range' n xs.length).map slot := by
  induction xs generalizing n with
  | nil => rfl
  | cons x xs ih => simp [numbered, ih (n + 1), List.range'_succ]

/-- How the slots in one value stand: under names, in a list, or the value itself is one. -/
inductive Arranged : List Slot → Prop where
  | named (slot : String → Slot) (names : List String) : slot.Injective → names.Nodup →
      (∀ name child, (slot name).put child = Json.fillMember name child) →
      Arranged (names.map slot)
  | listed (slot : ℕ → Slot) (indices : List ℕ) : slot.Injective → indices.Nodup →
      (∀ i child, (slot i).put child = Json.fillItem i child) → Arranged (indices.map slot)
  | whole (slot : Slot) : Arranged [slot]
  | none : Arranged []

theorem Arranged.nodup {slots : List Slot} (h : Arranged slots) : slots.Nodup := by
  cases h with
  | named slot names hi hn _ => exact hn.map hi
  | listed slot indices hi hn _ => exact hn.map hi
  | whole slot => exact List.nodup_singleton slot
  | none => exact .nil

theorem Arranged.put_comm {slots : List Slot} (h : Arranged slots) {a b : Slot} (ha : a ∈ slots)
    (hb : b ∈ slots) (hne : a ≠ b) (x y value : Json) :
    a.put x (b.put y value) = b.put y (a.put x value) := by
  cases h with
  | named slot names _ _ hput =>
    obtain ⟨name, -, rfl⟩ := List.mem_map.mp ha
    obtain ⟨name', -, rfl⟩ := List.mem_map.mp hb
    simp only [hput]
    exact Json.fillMember_comm (fun h => hne (congrArg slot h)) x y value
  | listed slot indices _ _ hput =>
    obtain ⟨i, -, rfl⟩ := List.mem_map.mp ha
    obtain ⟨i', -, rfl⟩ := List.mem_map.mp hb
    simp only [hput]
    exact Json.fillItem_comm (fun h => hne (congrArg slot h)) x y value
  | whole slot =>
    rw [List.mem_singleton.mp ha, List.mem_singleton.mp hb] at hne
    exact absurd rfl hne
  | none => cases ha

theorem arranged_members (slot : String → Slot) (hi : slot.Injective)
    (hput : ∀ name child, (slot name).put child = Json.fillMember name child) {ms : Members}
    (hn : ms.keys.Nodup) : Arranged ((ms.map fun m => (slot m.1, m.2)).map Prod.fst) := by
  have hs : (ms.map fun m => (slot m.1, m.2)).map Prod.fst = ms.keys.map slot := by
    simp [Members.keys, Function.comp_def]
  rw [hs]
  exact .named slot _ hi hn hput

theorem arranged_numbered (slot : ℕ → Slot) (hi : slot.Injective)
    (hput : ∀ i child, (slot i).put child = Json.fillItem i child) (xs : List Json) :
    Arranged ((numbered slot 0 xs).map Prod.fst) := by
  rw [map_fst_numbered]
  exact .listed slot _ hi List.nodup_range' hput

theorem arranged_under (keyword : String) (layout : Layout) {value : Json}
    (hn : value.members.keys.Nodup) : Arranged ((under keyword layout value).map Prod.fst) := by
  have hproperty : property.Injective := fun _ _ h => property.inj h
  have hentry : (entry keyword).Injective := fun _ _ h => (entry.inj h).2
  have hbranch : (branch keyword).Injective := fun _ _ h => (branch.inj h).2
  have htuple : tupleItem.Injective := fun _ _ h => tupleItem.inj h
  cases layout <;> cases value
  all_goals try exact .none
  case properties.obj ms => exact arranged_members property hproperty (fun _ _ => rfl) hn
  case entries.obj ms => exact arranged_members (entry keyword) hentry (fun _ _ => rfl) hn
  case objectEntries.obj ms =>
    exact arranged_members (entry keyword) hentry (fun _ _ => rfl) (Members.nodup_keys_filter _ hn)
  case items.obj ms | single.obj ms => exact .whole _
  case items.arr xs => exact arranged_numbered tupleItem htuple (fun _ _ => rfl) xs
  case branches.arr xs => exact arranged_numbered (branch keyword) hbranch (fun _ _ => rfl) xs

theorem mapUnder_self (keyword : String) (layout : Layout) (value : Json) :
    mapUnder (fun _ child => child) keyword layout value = value := by
  have hlist (slot : ℕ → Slot) (xs : List Json) : ((numbered slot 0 xs).map fun c => c.2) = xs :=
    (map_numbered (g := fun _ child => child) (f := id) (fun _ _ => rfl) 0 xs).trans xs.map_id
  cases layout <;> cases value <;> simp [mapUnder, hlist]

theorem mapUnder_null (keyword : String) (layout : Layout) (value : Json) :
    mapUnder (fun _ _ => .null) keyword layout value = emptyUnder layout value := by
  have hlist (slot : ℕ → Slot) (xs : List Json) :
      ((numbered slot 0 xs).map fun _ => Json.null) = xs.map fun _ => .null :=
    map_numbered (g := fun _ _ => .null) (fun _ _ => rfl) 0 xs
  cases layout <;> cases value <;> simp [mapUnder, emptyUnder, hlist]

end Slot

namespace Members

variable {node : Members} {children order : List (Slot × Json)} {a b : Slot}

def slots (node : Members) : List Slot := node.children.map Prod.fst

def slotsUnder (node : Members) (k : String × Layout) : List Slot :=
  match node.get? k.1 with
  | some value => (Slot.under k.1 k.2 value).map Prod.fst
  | none => []

theorem slots_eq_flatMap (node : Members) : node.slots = Slot.keywords.flatMap node.slotsUnder := by
  rw [slots, children, List.map_flatMap]
  refine List.flatMap_congr fun k _ => ?_
  obtain ⟨key, layout⟩ := k
  simp only [slotsUnder]
  cases node.get? key <;> rfl

theorem keyword_of_mem_slotsUnder {k : String × Layout} (hk : k ∈ Slot.keywords)
    (h : a ∈ node.slotsUnder k) : a.keyword = k.1 := by
  unfold slotsUnder at h
  split at h
  · obtain ⟨c, hc, rfl⟩ := List.mem_map.mp h
    exact Slot.keyword_of_mem_under hk hc
  · cases h

theorem arranged_slotsUnder (h : (Json.obj node).WellFormed) (k : String × Layout) :
    Slot.Arranged (node.slotsUnder k) := by
  unfold slotsUnder
  split
  · next value hv =>
    have hvalue : value.WellFormed := Json.WellFormed.of_get? h hv
    exact Slot.arranged_under k.1 k.2 hvalue.members.keys_nodup
  · exact .none

theorem nodup_slots (h : (Json.obj node).WellFormed) : node.slots.Nodup := by
  have hkeys : Slot.keywords.Pairwise fun k l => k.1 ≠ l.1 := by decide
  rw [slots_eq_flatMap, List.nodup_flatMap]
  refine ⟨fun k _ => (arranged_slotsUnder h k).nodup, ?_⟩
  refine hkeys.imp_of_mem fun hk hl hne slot hs hs' => ?_
  exact hne ((keyword_of_mem_slotsUnder hk hs).symm.trans (keyword_of_mem_slotsUnder hl hs'))

theorem fill_comm (h : (Json.obj node).WellFormed) (ha : a ∈ node.slots) (hb : b ∈ node.slots)
    (hne : a ≠ b) (x y : Json) (ms : Members) :
    (ms.fill a x).fill b y = (ms.fill b y).fill a x := by
  rw [slots_eq_flatMap, List.mem_flatMap] at ha hb
  obtain ⟨k, hk, ha⟩ := ha
  obtain ⟨l, hl, hb⟩ := hb
  simp only [fill_eq_replace, keyword_of_mem_slotsUnder hk ha, keyword_of_mem_slotsUnder hl hb]
  -- Two keywords are two members. Under one keyword both slots stand in the same value.
  by_cases hkey : k.1 = l.1
  · obtain rfl : k = l := Prod.ext hkey (Slot.layout_unique hk (hkey ▸ hl))
    rw [replace_replace, replace_replace]
    congr 1
    funext value
    exact ((arranged_slotsUnder h k).put_comm ha hb hne x y value).symm
  · exact replace_comm ms hkey _ _

theorem fillAll_perm (h : (Json.obj node).WellFormed) (hn : (children.map Prod.fst).Nodup)
    (hs : ∀ c ∈ children, c.1 ∈ node.slots) (hp : order.Perm children) (ms : Members) :
    ms.fillAll order = ms.fillAll children := by
  refine (hp.symm.foldl_eq' (fun a ha b hb ms => ?_) ms).symm
  by_cases hab : a = b
  · rw [hab]
  · have hne : a.1 ≠ b.1 := fun he => hab (List.inj_on_of_nodup_map hn ha hb he)
    exact fill_comm h (hs a ha) (hs b hb) hne a.2 b.2 ms

/-- In whatever order the slots are filled again, every sub-schema is replaced where it stands. -/
theorem fillAll_emptied (h : (Json.obj node).WellFormed) {order : List Slot}
    (hp : order.Perm node.slots) (value : Slot → Json) :
    node.emptied.fillAll (order.map fun slot => (slot, value slot)) =
      node.mapSlots fun slot _ => value slot := by
  rw [← refilled_eq_mapSlots h, refilled]
  have hfst : (node.children.map fun c => (c.1, value c.1)).map Prod.fst = node.slots := by
    simp [slots, Function.comp_def]
  apply fillAll_perm h
  · rw [hfst]
    exact nodup_slots h
  · intro c hc
    rw [← hfst]
    exact List.mem_map_of_mem hc
  · have hmap := hp.map fun slot => (slot, value slot)
    rwa [slots, List.map_map] at hmap

theorem emptied_eq_mapSlots (node : Members) : node.emptied = node.mapSlots fun _ _ => .null := by
  refine List.map_congr_left fun m _ => ?_
  obtain ⟨key, value⟩ := m
  cases hl : Slot.keywords.lookup key <;> simp only [hl, Slot.mapUnder_null]

theorem mapSlots_self (node : Members) : (node.mapSlots fun _ child => child) = node := by
  refine List.map_id'' (fun m => ?_) node
  cases Slot.keywords.lookup m.1 with
  | none => rfl
  | some layout => simp only [Slot.mapUnder_self]

/-- A node is what its own sub-schemas make of it, in whatever order they come back. -/
theorem fillAll_emptied_self (h : (Json.obj node).WellFormed) (hp : order.Perm node.children) :
    node.emptied.fillAll order = node := by
  have hself : node.refilled (fun _ child => child) = node := by
    rw [refilled_eq_mapSlots h, mapSlots_self]
  rw [fillAll_perm h (nodup_slots h) (fun _ hc => List.mem_map_of_mem hc) hp]
  simpa [refilled] using hself

end Members

namespace Traversal.Visitor

variable {σ : Type} {v : Visitor σ Json} {ctx : Context} {node : Json} {s : σ}

/-- The visitor descends into every node and puts its children back, in any order. -/
structure Rebuilds (v : Visitor σ Json) : Prop where
  enter : ∀ ctx node s, (v.enter ctx node s).1 = .descend node
  leave_obj : ∀ ctx (ms : Members) children s, ∃ order : List (Slot × Json),
    order.Perm children ∧ (v.leave ctx (.obj ms) children s).1 = .obj (ms.fillAll order)
  leave_other : ∀ ctx node s, node.isObject = false → (v.leave ctx node [] s).1 = node

theorem Rebuilds.shallow (h : v.Rebuilds) : v.Shallow := by
  intro ctx node s
  rw [h.enter]
  exact Nat.le_refl _

theorem Rebuilds.visit_of_not_isObject (h : v.Rebuilds) (hn : node.isObject = false) :
    (v.visit h.shallow ctx node s).1 = node := by
  have hclosed : (v.enter ctx node s).1.opened? = none := by
    rw [h.enter]
    cases node with
    | obj ms => cases hn
    | _ => rfl
  rw [visit_of_closed h.shallow hclosed, h.enter]
  exact h.leave_other ctx node _ hn

theorem Rebuilds.visit_eq_self (h : v.Rebuilds) (hn : node.WellFormed) :
    (v.visit h.shallow ctx node s).1 = node := by
  -- Children stand deeper in slots of any layout, so the induction is on the depth.
  induction hd : node.depth using Nat.strong_induction_on generalizing node ctx s with
  | _ d ih =>
    subst hd
    cases node with
    | obj ms =>
      have hopened : (v.enter ctx (.obj ms) s).1.opened? = some ms := by
        rw [h.enter]
        rfl
      let child : Slot → Context := fun slot => ⟨ctx.path ++ [slot], some (Members.emptied ms)⟩
      have hchildren (s : σ) : (visitEach (fun slot node => v.visit h.shallow (child slot) node)
          (Members.children ms) s).1 = Members.children ms := by
        rw [visitEach_fst (f := fun _ node => node) fun c hc s =>
          ih _ (Members.depth_lt_of_mem_children hc) (hn.of_mem_children hc) rfl]
        exact List.map_id' _
      rw [visit_of_opened h.shallow hopened]
      dsimp only
      rw [hchildren]
      obtain ⟨order, hp, hleave⟩ := h.leave_obj ctx (Members.emptied ms) (Members.children ms) _
      rw [hleave, Members.fillAll_emptied_self hn hp]
    | _ => exact h.visit_of_not_isObject rfl

end Traversal.Visitor

/-- The slots of a node are all different, and whatever is put into the emptied slots, in whatever
order, gives the node with every sub-schema replaced where it stands and all else unchanged. So a
traversal that descends into every node and puts all children back, in any order, gives the schema
itself. -/
theorem refilled_in_any_order :
    (∀ node : Members, (Json.obj node).WellFormed →
      (node.children.map Prod.fst).Nodup ∧ node.emptied = node.mapSlots (fun _ _ => .null) ∧
      ∀ (value : Slot → Json) (order : List Slot), order.Perm (node.children.map Prod.fst) →
        node.emptied.fillAll (order.map fun slot => (slot, value slot)) =
          node.mapSlots fun slot _ => value slot) ∧
    ∀ (σ : Type) (v : Traversal.Visitor σ Json) (h : v.Rebuilds) (schema : Json),
      schema.WellFormed → ∀ s, (v.run h.shallow schema s).1 = schema := by
  constructor
  · intro node h
    exact ⟨Members.nodup_slots h, node.emptied_eq_mapSlots,
      fun value order hp => Members.fillAll_emptied h hp value⟩
  · intro σ v h schema hn s
    rw [Traversal.Visitor.run_eq_visit]
    exact h.visit_eq_self hn

theorem refilled_in_reverse :
    let folder : Members :=
      [("title", .str "Folder"),
        ("properties", .obj [("name", .obj [("type", .str "string")]), ("size", .null)]),
        ("dependencies", .obj [("owner", .arr [.str "name"]), ("notes", .obj [])]),
        ("items", .arr [.bool true, .obj []]), ("not", .bool false)]
    let value : Slot → Json := fun slot => match slot with
      | .property name => .str name
      | .tupleItem index => .arr (List.replicate index .null)
      | _ => .null
    let v : Traversal.Visitor Unit Json :=
      { enter := fun _ node s => (.descend node, s)
        leave := fun _ node children s => match node with
          | .obj ms => (.obj (Members.fillAll ms children.reverse), s)
          | node => (node, s) }
    folder.emptied.fillAll ((folder.children.map Prod.fst).reverse.map fun slot =>
        (slot, value slot)) =
      [("title", .str "Folder"),
        ("properties", .obj [("name", .str "name"), ("size", .str "size")]),
        ("dependencies", .obj [("owner", .arr [.str "name"]), ("notes", .null)]),
        ("items", .arr [.arr [], .arr [.null]]), ("not", .bool false)] ∧
    ∃ h : v.Rebuilds, (v.run h.shallow (.obj folder) ()).1 = .obj folder := by
  intro folder value v
  have hfolder : (Json.obj folder).WellFormed := by
    simp [folder, Json.WellFormed, Json.WellFormedMembers, Json.WellFormedItems]
  have hv : v.Rebuilds := by
    refine ⟨fun _ _ _ => rfl, fun _ _ children _ => ⟨children.reverse, children.reverse_perm, rfl⟩,
      fun _ node _ hn => ?_⟩
    cases node with
    | obj ms => cases hn
    | _ => rfl
  obtain ⟨hnode, hrun⟩ := refilled_in_any_order
  obtain ⟨-, -, hfill⟩ := hnode folder hfolder
  exact ⟨(hfill value _ (List.reverse_perm _)).trans rfl, hv, hrun Unit v hv _ hfolder ()⟩

end SchemaRoutes
