import Mathlib.Data.List.Nodup
import SchemaRoutes.Proofs.Json.Members
import SchemaRoutes.Schema.Slot

/-! # Filling what was emptied

A slot stands in the value of one keyword, and filling it changes that value only. So the value of
a keyword in a filled node can be told from its own slots.
-/

namespace SchemaRoutes

theorem flatMap_eq_of_unique {α β : Type} {xs : List α} {x : α} {f : α → List β} (hn : xs.Nodup)
    (hx : x ∈ xs) (hf : ∀ y ∈ xs, y ≠ x → f y = []) : xs.flatMap f = f x := by
  obtain ⟨before, after, rfl⟩ := List.append_of_mem hx
  have hnone : ∀ ys : List α, (∀ y ∈ ys, y ∈ before ++ x :: after ∧ y ≠ x) → ys.flatMap f = [] :=
    fun ys h => List.flatMap_eq_nil_iff.mpr fun y hy => hf y (h y hy).1 (h y hy).2
  rw [List.nodup_middle, List.nodup_cons, List.mem_append, not_or] at hn
  obtain ⟨⟨hb, ha⟩, -⟩ := hn
  rw [List.flatMap_append, List.flatMap_cons, hnone before, hnone after, List.nil_append,
    List.append_nil]
  · intro y hy
    exact ⟨List.mem_append_right _ (.tail _ hy), fun he => ha (he ▸ hy)⟩
  · intro y hy
    exact ⟨List.mem_append_left _ hy, fun he => hb (he ▸ hy)⟩

namespace Members

variable {ms ns : Members} {key k : String} {v : Json} {f : Json → Json}

theorem replace_cons : replace ((k, v) :: ms) key f =
    if k = key then (k, f v) :: ms else (k, v) :: replace ms key f := by
  simp [replace]

theorem get?_replace (ms : Members) (key k : String) (f : Json → Json) :
    (ms.replace key f).get? k = if k = key then (ms.get? k).map f else ms.get? k := by
  induction ms with
  | nil => simp [replace, get?]
  | cons m ms ih =>
    obtain ⟨l, w⟩ := m
    rw [replace_cons]
    by_cases hl : l = key
    · subst hl
      by_cases hk : k = l <;> simp [get?_cons, hk]
    · by_cases hk : k = l
      · subst hk
        simp [get?_cons, hl]
      · simp [get?_cons, hl, hk, ih]

theorem replace_append_cons (h : key ∉ ms.keys) :
    replace (ms ++ (key, v) :: ns) key f = ms ++ (key, f v) :: ns := by
  induction ms with
  | nil => simp [replace_cons]
  | cons m ms ih =>
    obtain ⟨k, w⟩ := m
    rw [keys_cons, List.mem_cons, not_or] at h
    rw [List.cons_append, replace_cons, if_neg (Ne.symm h.1), ih h.2, List.cons_append]

@[simp] theorem keys_replace (ms : Members) (key : String) (f : Json → Json) :
    (ms.replace key f).keys = ms.keys := by
  induction ms with
  | nil => rfl
  | cons m ms ih =>
    obtain ⟨k, v⟩ := m
    rw [replace_cons]
    split
    · rfl
    · simp [ih]

theorem get?_map (g : String → Json → Json) (ms : Members) (k : String) :
    Members.get? (ms.map fun m => (m.1, g m.1 m.2)) k = (ms.get? k).map (g k) := by
  induction ms with
  | nil => rfl
  | cons m ms ih =>
    obtain ⟨l, w⟩ := m
    rw [List.map_cons, get?_cons, get?_cons, ih]
    by_cases hk : k = l <;> simp [hk]

end Members

namespace Slot

def keyword : Slot → String
  | property _ => "properties"
  | items | tupleItem _ => "items"
  | entry keyword _ | single keyword | branch keyword _ => keyword

def put (child : Json) : Slot → Json → Json
  | property name | entry _ name => Json.fillMember name child
  | items | single _ => fun _ => child
  | tupleItem index | branch _ index => Json.fillItem index child

def putAll (children : List (Slot × Json)) (value : Json) : Json :=
  children.foldl (fun value c => c.1.put c.2 value) value

def emptyFor (key : String) (value : Json) : Json :=
  match keywords.lookup key with
  | some layout => emptyUnder layout value
  | none => value

theorem lookup_keywords {key : String × Layout} (h : key ∈ keywords) :
    keywords.lookup key.1 = some key.2 := by
  have hl : ∀ k ∈ keywords, keywords.lookup k.1 = some k.2 := by decide
  exact hl key h

theorem mem_keywords_of_lookup {key : String} {layout : Layout}
    (h : keywords.lookup key = some layout) : (key, layout) ∈ keywords := by
  obtain ⟨before, after, he, -⟩ := List.lookup_eq_some_iff.mp h
  simp [he]

theorem emptyFor_eq {key : String} {layout : Layout} (h : (key, layout) ∈ keywords)
    (value : Json) : emptyFor key value = emptyUnder layout value := by
  simp only [emptyFor, lookup_keywords h]

theorem layout_unique {key : String} {layout layout' : Layout} (h : (key, layout) ∈ keywords)
    (h' : (key, layout') ∈ keywords) : layout = layout' :=
  Option.some.inj ((lookup_keywords h).symm.trans (lookup_keywords h'))

theorem keyword_of_mem_numbered (slot : ℕ → Slot) {key : String} (hk : ∀ i, (slot i).keyword = key)
    {n : ℕ} {xs : List Json} {c : Slot × Json} (h : c ∈ numbered slot n xs) :
    c.1.keyword = key := by
  induction xs generalizing n with
  | nil => cases h
  | cons x xs ih =>
    rcases List.mem_cons.mp h with rfl | h
    · exact hk n
    · exact ih h

theorem keyword_of_mem_under {key : String} {layout : Layout} (hk : (key, layout) ∈ keywords)
    {value : Json} {c : Slot × Json} (h : c ∈ under key layout value) : c.1.keyword = key := by
  have hproperties : ∀ k ∈ keywords, k.2 = .properties → "properties" = k.1 := by decide
  have hitems : ∀ k ∈ keywords, k.2 = .items → "items" = k.1 := by decide
  unfold under at h
  split at h
  case h_1 ms =>
    obtain ⟨m, -, rfl⟩ := List.mem_map.mp h
    exact hproperties _ hk rfl
  case h_2 ms | h_3 ms =>
    obtain ⟨m, -, rfl⟩ := List.mem_map.mp h
    rfl
  case h_4 ms =>
    cases List.mem_singleton.mp h
    exact hitems _ hk rfl
  case h_5 xs => exact keyword_of_mem_numbered tupleItem (fun _ => hitems _ hk rfl) h
  case h_6 ms =>
    cases List.mem_singleton.mp h
    rfl
  case h_7 xs => exact keyword_of_mem_numbered (branch key) (fun _ => rfl) h
  case h_8 => cases h

/-- The value of a keyword with every sub-schema in it replaced. -/
def mapUnder (g : Slot → Json → Json) (keyword : String) : Layout → Json → Json
  | .properties, .obj ms => .obj (ms.map fun m => (m.1, g (property m.1) m.2))
  | .entries, .obj ms => .obj (ms.map fun m => (m.1, g (entry keyword m.1) m.2))
  | .objectEntries, .obj ms =>
    .obj (ms.map fun m => (m.1, if m.2.isObject then g (entry keyword m.1) m.2 else m.2))
  | .items, .obj ms => g items (.obj ms)
  | .items, .arr xs => .arr ((numbered tupleItem 0 xs).map fun c => g c.1 c.2)
  | .single, .obj ms => g (single keyword) (.obj ms)
  | .branches, .arr xs => .arr ((numbered (branch keyword) 0 xs).map fun c => g c.1 c.2)
  | _, value => value

theorem putAll_members (slot : String → Slot)
    (hput : ∀ name child, (slot name).put child = Json.fillMember name child)
    (isSlot : Json → Bool) (g : String → Json → Json) (done : Members) {ms : Members}
    (hn : (done ++ ms).keys.Nodup) :
    putAll ((ms.filter fun m => isSlot m.2).map fun m => (slot m.1, g m.1 m.2))
        (.obj (done ++ ms.map fun m => (m.1, if isSlot m.2 then .null else m.2))) =
      .obj (done ++ ms.map fun m => (m.1, if isSlot m.2 then g m.1 m.2 else m.2)) := by
  induction ms generalizing done with
  | nil => rfl
  | cons m ms ih =>
    obtain ⟨name, value⟩ := m
    have hname : name ∉ done.keys := by
      rw [Members.keys_append, Members.keys_cons, List.nodup_middle, List.nodup_cons] at hn
      exact fun h => hn.1 (List.mem_append_left _ h)
    have hn' : ∀ value, (Members.keys (done ++ [(name, value)] ++ ms)).Nodup := by
      intro value
      simpa using hn
    by_cases hv : isSlot value = true
    · have hrest := ih (done ++ [(name, g name value)]) (hn' _)
      simp only [putAll, List.append_assoc, List.singleton_append] at hrest
      simp [putAll, hv, hput, Json.fillMember, Members.replace_append_cons hname, hrest]
    · have hrest := ih (done ++ [(name, value)]) (hn' _)
      simp only [List.append_assoc, List.singleton_append] at hrest
      simp [hv, hrest]

theorem putAll_numbered {slot : ℕ → Slot}
    (hput : ∀ i child, (slot i).put child = Json.fillItem i child) (g : Slot → Json → Json)
    (done xs : List Json) :
    putAll ((numbered slot done.length xs).map fun c => (c.1, g c.1 c.2))
        (.arr (done ++ xs.map fun _ => .null)) =
      .arr (done ++ (numbered slot done.length xs).map fun c => g c.1 c.2) := by
  induction xs generalizing done with
  | nil => rfl
  | cons x xs ih =>
    have hrest := ih (done ++ [g (slot done.length) x])
    simp only [putAll, List.length_append, List.length_singleton, List.append_assoc,
      List.singleton_append] at hrest
    simpa [putAll, numbered, hput, Json.fillItem] using hrest

/-- Filling all slots in the value of a keyword replaces every sub-schema in it. -/
theorem putAll_under (keyword : String) (layout : Layout) {value : Json}
    (hn : value.members.keys.Nodup) (g : Slot → Json → Json) :
    putAll ((under keyword layout value).map fun c => (c.1, g c.1 c.2))
        (emptyUnder layout value) =
      mapUnder g keyword layout value := by
  cases layout <;> cases value
  all_goals try rfl
  case properties.obj ms =>
    simpa [under, emptyUnder, mapUnder, Function.comp_def] using
      putAll_members property (fun _ _ => rfl) (fun _ => true) (fun name => g (property name)) [] hn
  case entries.obj ms =>
    simpa [under, emptyUnder, mapUnder, Function.comp_def] using
      putAll_members (entry keyword) (fun _ _ => rfl) (fun _ => true)
        (fun name => g (entry keyword name)) [] hn
  case objectEntries.obj ms =>
    simpa [under, emptyUnder, mapUnder, Function.comp_def] using
      putAll_members (entry keyword) (fun _ _ => rfl) Json.isObject
        (fun name => g (entry keyword name)) [] hn
  case items.arr xs => exact putAll_numbered (fun _ _ => rfl) g [] xs
  case branches.arr xs => exact putAll_numbered (fun _ _ => rfl) g [] xs

end Slot

namespace Members

variable {node : Members} {key : String} {value : Json}

theorem fill_eq_replace (node : Members) (slot : Slot) (child : Json) :
    node.fill slot child = node.replace slot.keyword (slot.put child) := by
  cases slot <;> rfl

/-- The value of a keyword comes only from the children in its own slots. -/
theorem get?_fillAll (node : Members) (children : List (Slot × Json)) (key : String) :
    (node.fillAll children).get? key =
      (node.get? key).map (Slot.putAll (children.filter fun c => c.1.keyword = key)) := by
  induction children generalizing node with
  | nil =>
    exact Option.map_id'.symm
  | cons c children ih =>
    have hstep : (node.fill c.1 c.2).get? key =
        if key = c.1.keyword then (node.get? key).map (c.1.put c.2) else node.get? key := by
      rw [fill_eq_replace, get?_replace]
    change (fillAll (node.fill c.1 c.2) children).get? key = _
    rw [ih, hstep]
    by_cases hk : c.1.keyword = key
    · rw [if_pos hk.symm, List.filter_cons_of_pos (by simpa using hk), Option.map_map]
      rfl
    · rw [if_neg (Ne.symm hk), List.filter_cons_of_neg (by simpa using hk)]

theorem mem_children_iff {c : Slot × Json} :
    c ∈ node.children ↔
      ∃ k ∈ Slot.keywords, ∃ value, node.get? k.1 = some value ∧ c ∈ Slot.under k.1 k.2 value := by
  rw [children, List.mem_flatMap]
  refine exists_congr fun k => and_congr_right fun _ => ?_
  cases hv : node.get? k.1 <;> simp [hv]

theorem filter_children {layout : Layout} (hk : (key, layout) ∈ Slot.keywords)
    (hv : node.get? key = some value) :
    (node.children.filter fun c => c.1.keyword = key) = Slot.under key layout value := by
  rw [children, List.filter_flatMap, flatMap_eq_of_unique (by decide) hk]
  · simp only [hv]
    refine List.filter_eq_self.mpr fun c hc => ?_
    simpa using Slot.keyword_of_mem_under hk hc
  · rintro ⟨key', layout'⟩ hk' hne
    have hkey : key' ≠ key := by
      rintro rfl
      rw [Slot.layout_unique hk' hk] at hne
      exact hne rfl
    refine List.filter_eq_nil_iff.mpr fun c hc => ?_
    cases hv' : node.get? key' with
    | none => simp [hv'] at hc
    | some value' =>
      simp only [hv'] at hc
      simpa [Slot.keyword_of_mem_under hk' hc] using hkey

theorem emptied_eq_map (node : Members) :
    node.emptied = node.map fun m => (m.1, Slot.emptyFor m.1 m.2) := by
  refine List.map_congr_left fun m _ => ?_
  simp only [Slot.emptyFor]
  cases Slot.keywords.lookup m.1 <;> rfl

theorem get?_emptied (node : Members) (key : String) :
    node.emptied.get? key = (node.get? key).map (Slot.emptyFor key) := by
  rw [emptied_eq_map, get?_map Slot.emptyFor]

theorem get?_emptied_of_lookup_eq_none (node : Members) {key : String}
    (h : Slot.keywords.lookup key = none) : node.emptied.get? key = node.get? key := by
  have hempty : Slot.emptyFor key = id := by
    funext value
    simp only [Slot.emptyFor, h, id]
  rw [get?_emptied, hempty, Option.map_id_fun, id]

/-- The node with something put into every slot in place of what was there. -/
def refilled (node : Members) (g : Slot → Json → Json) : Members :=
  node.emptied.fillAll (node.children.map fun c => (c.1, g c.1 c.2))

theorem get?_refilled {layout : Layout} (hk : (key, layout) ∈ Slot.keywords)
    (hv : node.get? key = some value) (g : Slot → Json → Json) :
    (node.refilled g).get? key = some (Slot.putAll
      ((Slot.under key layout value).map fun c => (c.1, g c.1 c.2))
      (Slot.emptyUnder layout value)) := by
  rw [refilled, get?_fillAll, get?_emptied, hv, Option.map_some, Option.map_some,
    Slot.emptyFor_eq hk, List.filter_map, ← filter_children hk hv]
  rfl

theorem get?_refilled_of_nodup {layout : Layout} (hk : (key, layout) ∈ Slot.keywords)
    (hv : node.get? key = some value) (hn : value.members.keys.Nodup) (g : Slot → Json → Json) :
    (node.refilled g).get? key = some (Slot.mapUnder g key layout value) := by
  rw [get?_refilled hk hv, Slot.putAll_under key layout hn]

theorem get?_refilled_of_lookup_eq_none (h : Slot.keywords.lookup key = none)
    (g : Slot → Json → Json) : (node.refilled g).get? key = node.get? key := by
  have hnone : (node.children.map fun c => (c.1, g c.1 c.2)).filter
      (fun c => c.1.keyword = key) = [] := by
    simp only [List.filter_map, List.map_eq_nil_iff, List.filter_eq_nil_iff, Function.comp_apply,
      decide_eq_true_eq]
    rintro c hc rfl
    obtain ⟨k, hk, value, -, hu⟩ := mem_children_iff.mp hc
    rw [Slot.keyword_of_mem_under hk hu, Slot.lookup_keywords hk] at h
    cases h
  rw [refilled, get?_fillAll, get?_emptied_of_lookup_eq_none node h, hnone]
  exact Option.map_id'

theorem get?_refilled_properties {properties : Members}
    (hv : node.get? "properties" = some (.obj properties)) (hn : properties.keys.Nodup)
    (g : Slot → Json → Json) :
    (node.refilled g).get? "properties" =
      some (.obj (properties.map fun m => (m.1, g (.property m.1) m.2))) :=
  get?_refilled_of_nodup (show ("properties", Layout.properties) ∈ Slot.keywords by decide) hv hn g

theorem get?_refilled_items {items : Members} (hv : node.get? "items" = some (.obj items))
    (g : Slot → Json → Json) :
    (node.refilled g).get? "items" = some (g .items (.obj items)) :=
  get?_refilled (show ("items", Layout.items) ∈ Slot.keywords by decide) hv g

@[simp] theorem keys_fill (node : Members) (slot : Slot) (child : Json) :
    (node.fill slot child).keys = node.keys := by rw [fill_eq_replace, keys_replace]

@[simp] theorem keys_fillAll (node : Members) (children : List (Slot × Json)) :
    (node.fillAll children).keys = node.keys := by
  induction children generalizing node with
  | nil => rfl
  | cons c children ih => exact (ih _).trans (keys_fill node c.1 c.2)

@[simp] theorem keys_emptied (node : Members) : node.emptied.keys = node.keys := by
  rw [emptied_eq_map]
  simp [keys, Function.comp_def]

@[simp] theorem keys_refilled (node : Members) (g : Slot → Json → Json) :
    (node.refilled g).keys = node.keys := by simp [refilled]

end Members

namespace Json.WellFormed

theorem of_mem_under {keyword : String} {layout : Layout} {value : Json} {c : Slot × Json}
    (h : value.WellFormed) (hc : c ∈ Slot.under keyword layout value) : c.2.WellFormed := by
  unfold Slot.under at hc
  split at hc
  case h_1 ms | h_2 ms =>
    obtain ⟨m, hm, rfl⟩ := List.mem_map.mp hc
    exact of_mem_members h.2 hm
  case h_3 ms =>
    obtain ⟨m, hm, rfl⟩ := List.mem_map.mp hc
    exact of_mem_members h.2 (List.mem_filter.mp hm).1
  case h_4 ms | h_6 ms =>
    cases List.mem_singleton.mp hc
    exact h
  case h_5 xs | h_7 xs => exact of_mem_items h (Slot.mem_of_mem_numbered hc)
  case h_8 => cases hc

theorem of_mem_children {ms : Members} {c : Slot × Json} (h : (obj ms).WellFormed)
    (hc : c ∈ ms.children) : c.2.WellFormed := by
  obtain ⟨k, -, value, hv, hu⟩ := Members.mem_children_iff.mp hc
  exact (of_get? h hv).of_mem_under hu

end Json.WellFormed

end SchemaRoutes
