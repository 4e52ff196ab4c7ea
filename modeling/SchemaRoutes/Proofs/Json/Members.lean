import Mathlib.Data.List.Basic
import SchemaRoutes.Json.Basic

/-! # Members by key

Setting a member touches nothing else: all keys and the other members keep their places, and a new
key goes to the end.
-/

namespace SchemaRoutes

theorem lookup_cons_eq_ite {κ α : Type} [DecidableEq κ] [BEq κ] [LawfulBEq κ]
    {entries : List (κ × α)} {key k : κ} {a : α} :
    ((key, a) :: entries).lookup k = if k = key then some a else entries.lookup k := by
  rw [List.lookup_cons]
  by_cases h : k = key
  · simp [h]
  · have hb : (k == key) = false := beq_eq_false_iff_ne.mpr h
    rw [hb, if_neg h]

namespace Members

variable {ms ns : Members} {key k : String} {value v : Json}

@[simp] theorem keys_nil : keys [] = [] := rfl

@[simp] theorem keys_cons : keys ((key, value) :: ms) = key :: keys ms := rfl

@[simp] theorem keys_append : keys (ms ++ ns) = keys ms ++ keys ns := List.map_append

@[simp] theorem get?_nil : get? [] k = none := rfl

theorem get?_cons : get? ((key, value) :: ms) k = if k = key then some value else get? ms k :=
  lookup_cons_eq_ite

theorem get?_eq_none_iff : ms.get? k = none ↔ k ∉ ms.keys := by
  induction ms with
  | nil => simp [get?]
  | cons m ms ih =>
    obtain ⟨key, value⟩ := m
    rw [get?_cons, keys_cons, List.mem_cons]
    by_cases h : k = key <;> simp [h, ih]

theorem isSome_get?_iff : (ms.get? k).isSome = true ↔ k ∈ ms.keys := by
  rw [← not_iff_not, ← get?_eq_none_iff, Bool.not_eq_true, Option.isSome_eq_false_iff,
    Option.isNone_iff_eq_none]

theorem get?_of_mem (hn : ms.keys.Nodup) (h : (k, v) ∈ ms) : ms.get? k = some v := by
  induction ms with
  | nil => cases h
  | cons m ms ih =>
    obtain ⟨key, value⟩ := m
    rw [keys_cons, List.nodup_cons] at hn
    rw [get?_cons]
    rcases List.mem_cons.mp h with he | hm
    · cases he
      rw [if_pos rfl]
    · have hne : k ≠ key := by
        rintro rfl
        exact hn.1 (List.mem_map_of_mem hm)
      rw [if_neg hne, ih hn.2 hm]

theorem mem_of_get? (h : ms.get? k = some v) : (k, v) ∈ ms := by
  induction ms with
  | nil => cases h
  | cons m ms ih =>
    obtain ⟨key, value⟩ := m
    rw [get?_cons] at h
    split at h
    · next hk =>
      cases h
      exact hk ▸ .head _
    · exact .tail _ (ih h)

theorem get?_append_of_not_mem (h : k ∉ ms.keys) : get? (ms ++ ns) k = ns.get? k := by
  rw [get?, List.lookup_append]
  rw [← get?_eq_none_iff, get?] at h
  rw [h, Option.none_or]
  rfl

theorem has_iff : ms.has k = true ↔ k ∈ ms.keys := by simp [has, keys]

theorem insert_cons : insert ((k, v) :: ms) key value =
    if k = key then (k, value) :: ms else (k, v) :: insert ms key value := by
  simp [insert]

theorem insert_of_not_mem (h : key ∉ ms.keys) : ms.insert key value = ms ++ [(key, value)] := by
  induction ms with
  | nil => rfl
  | cons m ms ih =>
    obtain ⟨k, v⟩ := m
    rw [keys_cons, List.mem_cons, not_or] at h
    rw [insert_cons, if_neg (Ne.symm h.1), ih h.2, List.cons_append]

theorem keys_insert_of_mem (h : key ∈ ms.keys) : (ms.insert key value).keys = ms.keys := by
  induction ms with
  | nil => cases h
  | cons m ms ih =>
    obtain ⟨k, v⟩ := m
    rw [insert_cons]
    split
    · rfl
    · next hk =>
      rw [keys_cons, keys_cons, ih ((List.mem_cons.mp h).resolve_left (Ne.symm hk))]

theorem keys_insert :
    (ms.insert key value).keys = ms.keys ++ if key ∈ ms.keys then [] else [key] := by
  split
  · next h => rw [keys_insert_of_mem h, List.append_nil]
  · next h => rw [insert_of_not_mem h, keys_append, keys_cons, keys_nil]

theorem nodup_keys_insert (h : ms.keys.Nodup) : (ms.insert key value).keys.Nodup := by
  rw [keys_insert]
  split
  · rwa [List.append_nil]
  · next hk =>
    refine List.nodup_append.mpr ⟨h, List.pairwise_singleton _ _, ?_⟩
    rintro k hk' k' hk'' rfl
    exact hk (List.mem_singleton.mp hk'' ▸ hk')

theorem get?_insert_self : (ms.insert key value).get? key = some value := by
  induction ms with
  | nil => simp [insert, get?]
  | cons m ms ih =>
    obtain ⟨k, v⟩ := m
    rw [insert_cons]
    split
    · next hk => rw [get?_cons, if_pos hk.symm]
    · next hk => rw [get?_cons, if_neg (Ne.symm hk), ih]

theorem get?_insert_of_ne (h : k ≠ key) : (ms.insert key value).get? k = ms.get? k := by
  induction ms with
  | nil => simp [insert, get?_cons, h]
  | cons m ms ih =>
    obtain ⟨l, w⟩ := m
    rw [insert_cons]
    split
    · next hl => rw [get?_cons, get?_cons, if_neg (hl ▸ h), if_neg (hl ▸ h)]
    · rw [get?_cons, get?_cons, ih]

theorem mem_keys_insert_self : key ∈ (ms.insert key value).keys := by
  rw [← isSome_get?_iff, get?_insert_self]
  rfl

theorem insert_insert_self : (ms.insert key v).insert key value = ms.insert key value := by
  induction ms with
  | nil => simp [insert]
  | cons m ms ih =>
    obtain ⟨k, w⟩ := m
    rw [insert_cons, insert_cons]
    split
    · next hk => rw [insert_cons, if_pos hk]
    · next hk => rw [insert_cons, if_neg hk, ih]

theorem insert_comm_of_mem (hk : k ∈ ms.keys) (hne : k ≠ key) :
    (ms.insert key value).insert k v = (ms.insert k v).insert key value := by
  induction ms with
  | nil => cases hk
  | cons m ms ih =>
    obtain ⟨l, w⟩ := m
    rw [keys_cons, List.mem_cons] at hk
    by_cases hl : l = k
    · subst hl
      simp only [insert_cons, if_pos, if_neg hne]
    by_cases hl' : l = key
    · subst hl'
      simp only [insert_cons, if_pos, if_neg hl]
    · simp only [insert_cons, if_neg hl, if_neg hl', ih (hk.resolve_left (Ne.symm hl))]

theorem getElem?_insert_of_ne {i : ℕ} (hi : ms[i]? = some (k, v)) (h : k ≠ key) :
    (ms.insert key value)[i]? = some (k, v) := by
  induction ms generalizing i with
  | nil => cases hi
  | cons m ms ih =>
    obtain ⟨l, w⟩ := m
    rw [insert_cons]
    cases i with
    | zero =>
      cases hi
      rw [if_neg h]
      rfl
    | succ i =>
      rw [List.getElem?_cons_succ] at hi
      split
      · exact hi
      · exact ih hi

theorem extend_of_fresh (hn : ns.keys.Nodup) (hd : ∀ k ∈ ns.keys, k ∉ ms.keys) :
    ms.extend ns = ms ++ ns := by
  induction ns generalizing ms with
  | nil => simp [extend]
  | cons n ns ih =>
    obtain ⟨key, value⟩ := n
    rw [keys_cons, List.nodup_cons] at hn
    have hi : ms.insert key value = ms ++ [(key, value)] := insert_of_not_mem (hd key (.head _))
    have hf : ∀ k ∈ keys ns, k ∉ keys (ms ++ [(key, value)]) := by
      intro k hk
      rw [keys_append, List.mem_append, not_or]
      refine ⟨hd k (.tail _ hk), fun h => hn.1 ?_⟩
      rw [keys_cons, keys_nil, List.mem_singleton] at h
      exact h ▸ hk
    change extend (ms.insert key value) ns = _
    rw [hi, ih hn.2 hf, List.append_assoc, List.singleton_append]

theorem mem_keys {m : String × Json} (h : m ∈ ms) : m.1 ∈ ms.keys := List.mem_map_of_mem h

theorem insert_of_mem (hn : ms.keys.Nodup) (h : key ∈ ms.keys) :
    ms.insert key value = ms.map fun m => (m.1, if m.1 = key then value else m.2) := by
  induction ms with
  | nil => cases h
  | cons m ms ih =>
    obtain ⟨k, v⟩ := m
    rw [keys_cons, List.nodup_cons] at hn
    rw [insert_cons, List.map_cons]
    by_cases hk : k = key
    · have hrest : ∀ m ∈ ms, (m.1, if m.1 = key then value else m.2) = id m := by
        intro m hm
        have hne : m.1 ≠ key := fun he => hn.1 (hk.trans he.symm ▸ mem_keys hm)
        rw [if_neg hne, id]
      rw [if_pos hk, if_pos hk, List.map_congr_left hrest, List.map_id]
    · rw [if_neg hk, if_neg hk, ih hn.2 ((List.mem_cons.mp h).resolve_left (Ne.symm hk))]

/-- Members keep their places and take the values given for them, and new members are appended in
order. -/
theorem extend_eq (hm : ms.keys.Nodup) (hn : ns.keys.Nodup) :
    ms.extend ns = ms.map (fun m => (m.1, (ns.get? m.1).getD m.2)) ++
      ns.filter fun n => n.1 ∉ ms.keys := by
  induction ns generalizing ms with
  | nil => simp [extend, get?]
  | cons n ns ih =>
    obtain ⟨key, value⟩ := n
    rw [keys_cons, List.nodup_cons] at hn
    have hlast : get? ns key = none := get?_eq_none_iff.mpr hn.1
    change extend (ms.insert key value) ns = _
    rw [ih (nodup_keys_insert hm) hn.2]
    by_cases hk : key ∈ ms.keys
    · rw [keys_insert_of_mem hk, insert_of_mem hm hk, List.map_map,
        List.filter_cons_of_neg (by simpa using hk)]
      congr 1
      refine List.map_congr_left fun m _ => ?_
      by_cases he : m.1 = key
      · simp [get?_cons, he, hlast]
      · simp [get?_cons, he]
    · have hkeys : keys (ms ++ [(key, value)]) = ms.keys ++ [key] := keys_append
      rw [insert_of_not_mem hk, hkeys, List.map_append, List.map_singleton, hlast,
        Option.getD_none, List.append_assoc, List.singleton_append,
        List.filter_cons_of_pos (by simpa using hk)]
      congr 1
      · refine List.map_congr_left fun m hm' => ?_
        have hne : m.1 ≠ key := fun he => hk (he ▸ mem_keys hm')
        rw [get?_cons, if_neg hne]
      · congr 1
        refine List.filter_congr fun n hn' => ?_
        have hne : n.1 ≠ key := fun he => hn.1 (he ▸ mem_keys hn')
        simp [hne]

theorem ext_get? (hk : ms.keys = ns.keys) (hn : ms.keys.Nodup)
    (h : ∀ key ∈ ms.keys, ms.get? key = ns.get? key) : ms = ns := by
  induction ms generalizing ns with
  | nil => exact (List.map_eq_nil_iff.mp hk.symm).symm
  | cons m ms ih =>
    obtain ⟨key, value⟩ := m
    cases ns with
    | nil => cases hk
    | cons n ns =>
      obtain ⟨key', value'⟩ := n
      rw [keys_cons, keys_cons, List.cons.injEq] at hk
      obtain ⟨rfl, hk⟩ := hk
      rw [keys_cons, List.nodup_cons] at hn
      have hhead := h key (.head _)
      simp only [get?_cons, if_true, Option.some.injEq] at hhead
      subst hhead
      congr 1
      refine ih hk hn.2 fun k hmem => ?_
      have hne : k ≠ key := fun he => hn.1 (he ▸ hmem)
      simpa [get?_cons, hne] using h k (.tail _ hmem)

theorem erase_eq_filter (hn : ms.keys.Nodup) : ms.erase key = ms.filter fun m => m.1 ≠ key := by
  induction ms with
  | nil => rfl
  | cons m ms ih =>
    obtain ⟨k, v⟩ := m
    rw [keys_cons, List.nodup_cons] at hn
    by_cases hk : k = key
    · subst hk
      have hrest : ∀ m ∈ ms, m.1 ≠ k := fun m hm he => hn.1 (he ▸ mem_keys hm)
      have hall : ms.filter (fun m => m.1 ≠ k) = ms := by simpa using fun a b => hrest (a, b)
      rw [List.filter_cons_of_neg (by simp), hall]
      simp [erase]
    · simp [erase, hk, ih hn.2]

theorem get?_erase_of_ne (h : k ≠ key) : (ms.erase key).get? k = ms.get? k := by
  induction ms with
  | nil => rfl
  | cons m ms ih =>
    obtain ⟨l, w⟩ := m
    by_cases hl : l = key
    · subst hl
      simp [erase, get?_cons, h]
    · simp [erase, get?_cons, hl, ih]

theorem get?_erase_self (hn : ms.keys.Nodup) : (ms.erase key).get? key = none := by
  rw [erase_eq_filter hn, get?_eq_none_iff]
  simp [keys]

theorem get?_filter (p : String → Bool) (ms : Members) (key : String) :
    get? (ms.filter fun m => p m.1) key = if p key then ms.get? key else none := by
  induction ms with
  | nil => simp [get?]
  | cons m ms ih =>
    obtain ⟨k, v⟩ := m
    by_cases hk : key = k
    · subst hk
      by_cases hp : p key = true
      · simp [hp, get?_cons]
      · simp [hp, ih]
    · by_cases hp : p k = true <;> simp [hp, ih, get?_cons, hk]

theorem nodup_keys_filter (p : String × Json → Bool) (hn : ms.keys.Nodup) :
    (keys (ms.filter p)).Nodup := hn.sublist (List.filter_sublist.map _)

theorem nodup_keys_erase (hn : ms.keys.Nodup) : (ms.erase key).keys.Nodup := by
  rw [erase_eq_filter hn]
  exact nodup_keys_filter _ hn

/-- The members of the object under a key; a missing key has none. -/
def inner (ms : Members) (key : String) : Members := ((ms.get? key).getD (.obj [])).members

def IsSection (ms : Members) (key : String) : Prop :=
  ms.get? key = none ∨ ∃ inner, ms.get? key = some (.obj inner)

theorem IsSection.getD_eq (h : ms.IsSection key) :
    (ms.get? key).getD (.obj []) = .obj (ms.inner key) := by
  rcases h with h | ⟨ns, h⟩ <;> simp [inner, h, Json.members]

theorem inner_of_not_mem (h : key ∉ ms.keys) : ms.inner key = [] := by
  rw [inner, get?_eq_none_iff.mpr h]
  rfl

theorem inner_insert_of_ne (h : k ≠ key) : (ms.insert key value).inner k = ms.inner k := by
  rw [inner, get?_insert_of_ne h, inner]

theorem inner_insert_self : (ms.insert key (.obj ns)).inner key = ns := by
  rw [inner, get?_insert_self]
  rfl

theorem isSection_insert_self : (ms.insert key (.obj ns)).IsSection key :=
  .inr ⟨ns, get?_insert_self⟩

theorem isSection_insert_of_ne (h : k ≠ key) :
    (ms.insert key value).IsSection k ↔ ms.IsSection k := by
  rw [IsSection, get?_insert_of_ne h, IsSection]

/-- Only the values under some keys have changed. All members keep their places, and such keys as
were missing are behind them in the order given. -/
structure ChangedAt (changed : List String) (ms ns : Members) : Prop where
  keys_eq : ns.keys = ms.keys ++ changed.filter (· ∉ ms.keys)
  kept : ∀ (i : ℕ) (k : String) (v : Json),
    ms[i]? = some (k, v) → k ∉ changed → ns[i]? = some (k, v)

theorem ChangedAt.refl (ms : Members) : ChangedAt [] ms ms where
  keys_eq := by simp
  kept _ _ _ h _ := h

theorem ChangedAt.insert {changed : List String} (h : ChangedAt changed ms ns)
    (hk : key ∉ changed) : ChangedAt (changed ++ [key]) ms (ns.insert key value) where
  keys_eq := by
    have hmem : key ∈ ns.keys ↔ key ∈ ms.keys := by simp [h.keys_eq, hk]
    rw [keys_insert, List.filter_append, ← List.append_assoc, ← h.keys_eq]
    by_cases hm : key ∈ ms.keys <;> simp [hmem, hm]
  kept i k v hi hk' := by
    rw [List.mem_append, List.mem_singleton, not_or] at hk'
    exact getElem?_insert_of_ne (h.kept i k v hi hk'.1) hk'.2

end Members

@[simp] theorem Json.get?_obj (ms : Members) (key : String) :
    (Json.obj ms).get? key = ms.get? key := rfl

namespace Json.WellFormed

variable {j v : Json} {ms : Members} {key : String}

theorem keys_nodup (h : (obj ms).WellFormed) : ms.keys.Nodup := h.1

theorem of_mem_members {m : String × Json} (h : WellFormedMembers ms) (hm : m ∈ ms) :
    m.2.WellFormed := by
  induction ms with
  | nil => cases hm
  | cons n ms ih =>
    rcases List.mem_cons.mp hm with rfl | hm
    · exact h.1
    · exact ih h.2 hm

theorem of_mem_items {xs : List Json} {x : Json} (h : WellFormedItems xs) (hx : x ∈ xs) :
    x.WellFormed := by
  induction xs with
  | nil => cases hx
  | cons y xs ih =>
    rcases List.mem_cons.mp hx with rfl | hx
    · exact h.1
    · exact ih h.2 hx

theorem arr {xs : List Json} (h : ∀ x ∈ xs, x.WellFormed) : (Json.arr xs).WellFormed := by
  change WellFormedItems xs
  induction xs with
  | nil => trivial
  | cons x xs ih =>
    obtain ⟨hx, hxs⟩ := List.forall_mem_cons.mp h
    exact ⟨hx, ih hxs⟩

theorem members (h : j.WellFormed) : (obj j.members).WellFormed := by
  cases j with
  | obj ms => exact h
  | _ => exact ⟨List.nodup_nil, trivial⟩

theorem insert (h : (obj ms).WellFormed) (hv : v.WellFormed) :
    (obj (ms.insert key v)).WellFormed := by
  obtain ⟨hn, hms⟩ := h
  constructor
  · exact Members.nodup_keys_insert hn
  · induction ms with
    | nil => exact ⟨hv, trivial⟩
    | cons m ms ih =>
      obtain ⟨k, w⟩ := m
      rw [Members.insert_cons]
      split
      · exact ⟨hv, hms.2⟩
      · exact ⟨hms.1, ih (List.nodup_cons.mp hn).2 hms.2⟩

theorem of_get? (h : j.WellFormed) (hv : j.get? key = some v) : v.WellFormed := by
  cases j with
  | obj ms => exact of_mem_members h.2 (Members.mem_of_get? hv)
  | _ => cases hv

end Json.WellFormed

end SchemaRoutes
