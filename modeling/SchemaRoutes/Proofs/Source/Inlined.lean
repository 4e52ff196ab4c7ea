import SchemaRoutes.Proofs.Checks
import SchemaRoutes.Proofs.Source.Expansion
import SchemaRoutes.Schema.Slot

/-! # What is inlined has no references

An object loses its own reference, and takes over members only from a target in which everything is
inlined. A member under the same key that is no text stays no text. So no reference is left, and a
value without references is what inlining makes of it.
-/

namespace SchemaRoutes

namespace Json

inductive Step where
  | key (name : String)
  | index (i : ℕ)

def step? : Json → Step → Option Json
  | obj ms, .key name => Members.get? ms name
  | arr xs, .index i => xs[i]?
  | _, _ => none

def at? (j : Json) (path : List Step) : Option Json := path.foldlM step? j

theorem at?_cons_eq_some_iff {j v : Json} {step : Step} {path : List Step} :
    j.at? (step :: path) = some v ↔
      ∃ child, j.step? step = some child ∧ child.at? path = some v := by
  rw [at?, List.foldlM_cons]
  exact Option.bind_eq_some_iff

/-- What an array gets from all its items, and an object from the values of all its members, every
value has. -/
@[elab_as_elim]
theorem induction_of_parts {motive : Json → Prop} (null : motive null)
    (bool : ∀ b, motive (bool b)) (num : ∀ n, motive (num n)) (str : ∀ s, motive (str s))
    (arr : ∀ xs, (∀ x ∈ xs, motive x) → motive (arr xs))
    (obj : ∀ ms : Members, (∀ m ∈ ms, motive m.2) → motive (obj ms)) (j : Json) : motive j := by
  induction hn : j.depth using Nat.strong_induction_on generalizing j with
  | _ n ih =>
  subst hn
  cases j with
  | null => exact null
  | bool b => exact bool b
  | num n => exact num n
  | str s => exact str s
  | arr xs =>
    exact arr xs fun x hx => ih _ (Nat.lt_succ_of_le (depth_le_of_mem_items hx)) x rfl
  | obj ms =>
    exact obj ms fun m hm => ih _ (Nat.lt_succ_of_le (depth_le_of_mem_members hm)) m.2 rfl

end Json

namespace Reference

variable {ε : Type} {follow : String → Except ε Json} {ms ms' own target : Members} {j v y : Json}
  {xs ys : List Json} {reference k : String} {path : List Json.Step}

/-! ## Items and members -/

theorem inlineItems_eq_ok_iff : inlineItems follow xs = .ok ys ↔
    List.Forall₂ (fun x y => inlineWith follow x = .ok y) xs ys := by
  have h : inlineItems follow xs = xs.mapM (inlineWith follow) := by
    induction xs with
    | nil => rfl
    | cons x xs ih => rw [inlineItems, List.mapM_cons, ih]
  rw [h, mapM_eq_ok_iff]

def kept (dropReference : Bool) (ms : Members) : Members :=
  ms.filter fun m => !(dropReference && m.1 == "$ref")

theorem inlineMembers_eq_ok_iff {dropReference : Bool} :
    inlineMembers follow dropReference ms = .ok ms' ↔
      List.Forall₂ (fun m m' => m.1 = m'.1 ∧ inlineWith follow m.2 = .ok m'.2)
        (kept dropReference ms) ms' := by
  induction ms generalizing ms' with
  | nil =>
    rw [inlineMembers, kept, List.filter_nil, List.forall₂_nil_left_iff]
    exact ⟨fun h => (Except.ok.inj h).symm, fun h => h ▸ rfl⟩
  | cons m ms ih =>
    obtain ⟨key, value⟩ := m
    rw [inlineMembers, kept, List.filter_cons]
    cases dropReference && key == "$ref" with
    | true => exact ih
    | false =>
      simp only [Bool.false_eq_true, Bool.not_false, if_true, if_false]
      rw [bind_eq_ok_iff, List.forall₂_cons_left_iff]
      constructor
      · rintro ⟨y, hy, h⟩
        obtain ⟨rest, hrest, h⟩ := bind_eq_ok_iff.mp h
        exact ⟨(key, y), rest, ⟨rfl, hy⟩, ih.mp hrest, (Except.ok.inj h).symm⟩
      · rintro ⟨⟨_, y⟩, rest, ⟨rfl, hy⟩, hrest, rfl⟩
        exact ⟨y, hy, bind_eq_ok_iff.mpr ⟨rest, ih.mpr hrest, rfl⟩⟩

theorem kept_false (ms : Members) : kept false ms = ms := List.filter_eq_self.mpr fun _ _ => rfl

theorem get?_kept_true (hk : k ≠ "$ref") : (kept true ms).get? k = ms.get? k := by
  induction ms with
  | nil => rfl
  | cons m ms ih =>
    obtain ⟨key, value⟩ := m
    rw [kept, List.filter_cons, Members.get?_cons]
    by_cases he : key = "$ref"
    · rw [if_neg (by simp [he]), if_neg (he ▸ hk)]
      exact ih
    · rw [if_pos (by simp [he]), Members.get?_cons]
      exact if_congr Iff.rfl rfl ih

theorem rel_get?
    (h : List.Forall₂ (fun m m' => m.1 = m'.1 ∧ inlineWith follow m.2 = .ok m'.2) ms ms')
    (k : String) : Option.Rel (inlineWith follow · = .ok ·) (ms.get? k) (ms'.get? k) := by
  induction h with
  | nil => exact .none
  | @cons m m' ms ms' hm _ ih =>
    obtain ⟨⟨key, v⟩, _, y⟩ := m, m'
    obtain ⟨rfl, hv⟩ := hm
    rw [Members.get?_cons, Members.get?_cons]
    split
    · exact .some hv
    · exact ih

theorem ref_not_mem_keys_of_inlineMembers (h : inlineMembers follow true ms = .ok own) :
    "$ref" ∉ own.keys := by
  have hrel := rel_get? (inlineMembers_eq_ok_iff.mp h) "$ref"
  have hnone : (kept true ms).get? "$ref" = none := by
    rw [Members.get?_eq_none_iff]
    intro hm
    obtain ⟨m, hm, hkey⟩ := List.mem_map.mp hm
    simpa [hkey] using (List.mem_filter.mp hm).2
  rw [hnone] at hrel
  rw [← Members.get?_eq_none_iff]
  generalize own.get? "$ref" = x at hrel
  cases hrel
  rfl

theorem inlineWith_arr_eq_ok (h : inlineWith follow (.arr xs) = .ok y) :
    ∃ ys, List.Forall₂ (fun x y => inlineWith follow x = .ok y) xs ys ∧ y = .arr ys := by
  rw [inlineWith] at h
  obtain ⟨ys, hys, h⟩ := bind_eq_ok_iff.mp h
  exact ⟨ys, inlineItems_eq_ok_iff.mp hys, (Except.ok.inj h).symm⟩

theorem inlineWith_of_of?_eq_none (hr : of? ms = none) (h : inlineWith follow (.obj ms) = .ok y) :
    ∃ ms', inlineMembers follow false ms = .ok ms' ∧ y = .obj ms' := by
  rw [inlineWith, hr] at h
  obtain ⟨ms', hms, h⟩ := bind_eq_ok_iff.mp h
  exact ⟨ms', hms, (Except.ok.inj h).symm⟩

theorem inlineWith_of_of?_eq_some (hr : of? ms = some reference)
    (h : inlineWith follow (.obj ms) = .ok y) :
    ∃ target own, follow reference = .ok target ∧ inlineMembers follow true ms = .ok own ∧
      y = .obj (adopt own target.members) := by
  rw [inlineWith, hr] at h
  obtain ⟨target, htarget, h⟩ := bind_eq_ok_iff.mp h
  obtain ⟨own, hown, h⟩ := bind_eq_ok_iff.mp h
  exact ⟨target, own, htarget, hown, (Except.ok.inj h).symm⟩

theorem isObject_of_inlineWith (h : inlineWith follow j = .ok y) : y.isObject = j.isObject := by
  cases j with
  | obj ms =>
    cases hr : of? ms with
    | none =>
      obtain ⟨ms', -, rfl⟩ := inlineWith_of_of?_eq_none hr h
      rfl
    | some reference =>
      obtain ⟨target, own, -, -, rfl⟩ := inlineWith_of_of?_eq_some hr h
      rfl
  | arr xs =>
    obtain ⟨ys, -, rfl⟩ := inlineWith_arr_eq_ok h
    rfl
  | _ =>
    rw [inlineWith] at h
    cases h
    rfl

theorem str?_of_inlineWith (h : inlineWith follow j = .ok y) : y.str? = j.str? := by
  cases j with
  | obj ms =>
    have hy := isObject_of_inlineWith h
    cases y with
    | obj ms => rfl
    | _ => cases hy
  | arr xs =>
    obtain ⟨ys, -, rfl⟩ := inlineWith_arr_eq_ok h
    rfl
  | _ =>
    rw [inlineWith] at h
    cases h
    rfl

/-! ## Members that are taken over -/

theorem adopt_cons {m : String × Json} :
    adopt own (m :: target) = adopt (if own.has m.1 then own else own ++ [m]) target := rfl

/-- An object's own members come before those that it takes over. -/
theorem get?_adopt : (adopt own target).get? k = (own.get? k).or (target.get? k) := by
  induction target generalizing own with
  | nil => exact Option.or_none.symm
  | cons m target ih =>
    obtain ⟨key, value⟩ := m
    rw [adopt_cons, ih, Members.get?_cons]
    by_cases hm : key ∈ own.keys
    · rw [if_pos (Members.has_iff.mpr hm)]
      by_cases hk : k = key
      · obtain ⟨v, hv⟩ := Option.isSome_iff_exists.mp (Members.isSome_get?_iff.mpr (hk ▸ hm))
        rw [hv, Option.some_or, Option.some_or]
      · rw [if_neg hk]
    · have happend : Members.get? (own ++ [(key, value)]) k =
          (own.get? k).or (if k = key then some value else none) := by
        rw [Members.get?, List.lookup_append, lookup_cons_eq_ite]
        rfl
      rw [if_neg (mt Members.has_iff.mp hm), happend, Option.or_assoc]
      by_cases hk : k = key
      · rw [if_pos hk, if_pos hk, Option.some_or]
      · rw [if_neg hk, if_neg hk, Option.none_or]

theorem mem_adopt {m : String × Json} (h : m ∈ adopt own target) : m ∈ own ∨ m ∈ target := by
  induction target generalizing own with
  | nil => exact .inl h
  | cons n target ih =>
    rw [adopt_cons] at h
    rcases ih h with h | h
    · split at h
      · exact .inl h
      · rcases List.mem_append.mp h with h | h
        · exact .inl h
        · exact .inr (List.mem_singleton.mp h ▸ .head _)
    · exact .inr (.tail _ h)

/-! ## Nothing is left -/

theorem of?_members_of_all_eq_nil (h : all j = []) : of? j.members = none := by
  cases j with
  | obj ms =>
    rw [all, List.append_eq_nil_iff] at h
    exact Option.toList_eq_nil_iff.mp h.1
  | _ => rfl

theorem of?_of_inlineMembers (h : inlineMembers follow false ms = .ok ms') : of? ms' = of? ms := by
  rw [inlineMembers_eq_ok_iff, kept_false] at h
  have hrel := rel_get? h "$ref"
  unfold of?
  generalize ms.get? "$ref" = v at hrel ⊢
  generalize ms'.get? "$ref" = y at hrel ⊢
  cases hrel with
  | none => rfl
  | some hv => exact str?_of_inlineWith hv

theorem allInItems_eq_nil_iff : allInItems xs = [] ↔ ∀ x ∈ xs, all x = [] := by
  induction xs with
  | nil => exact ⟨fun _ => nofun, fun _ => rfl⟩
  | cons x xs ih => rw [allInItems, List.append_eq_nil_iff, ih, List.forall_mem_cons]

theorem allInMembers_eq_nil_iff : allInMembers ms = [] ↔ ∀ m ∈ ms, all m.2 = [] := by
  induction ms with
  | nil => exact ⟨fun _ => nofun, fun _ => rfl⟩
  | cons m ms ih => rw [allInMembers, List.append_eq_nil_iff, ih, List.forall_mem_cons]

theorem all_eq_nil_of_mem_members {m : String × Json} (h : all j = []) (hm : m ∈ j.members) :
    all m.2 = [] := by
  cases j with
  | obj ms =>
    rw [all, List.append_eq_nil_iff] at h
    exact allInMembers_eq_nil_iff.mp h.2 m hm
  | _ => cases hm

theorem all_eq_nil_of_inlineWith (hf : ∀ reference y, follow reference = .ok y → all y = []) :
    ∀ y, inlineWith follow j = .ok y → all y = [] := by
  induction j using Json.induction_of_parts with
  | obj ms ih =>
    have hmembers : ∀ {dropReference ms'}, inlineMembers follow dropReference ms = .ok ms' →
        ∀ m' ∈ ms', all m'.2 = [] := by
      intro dropReference ms' h m' hm'
      obtain ⟨m, hm, -, hv⟩ := exists_rel_of_mem_right (inlineMembers_eq_ok_iff.mp h) hm'
      exact ih m (List.mem_filter.mp hm).1 _ hv
    intro y h
    cases hr : of? ms with
    | none =>
      obtain ⟨ms', hms, rfl⟩ := inlineWith_of_of?_eq_none hr h
      rw [all_obj_eq ((of?_of_inlineMembers hms).trans hr), allInMembers_eq_nil_iff]
      exact hmembers hms
    | some reference =>
      obtain ⟨target, own, htarget, hown, rfl⟩ := inlineWith_of_of?_eq_some hr h
      have hnil := hf reference target htarget
      have hnone : of? (adopt own target.members) = none := by
        rw [of?, get?_adopt, Members.get?_eq_none_iff.mpr (ref_not_mem_keys_of_inlineMembers hown),
          Option.none_or]
        exact of?_members_of_all_eq_nil hnil
      rw [all_obj_eq hnone, allInMembers_eq_nil_iff]
      intro m hm
      rcases mem_adopt hm with hm | hm
      · exact hmembers hown m hm
      · exact all_eq_nil_of_mem_members hnil hm
  | arr xs ih =>
    intro y h
    obtain ⟨ys, hys, rfl⟩ := inlineWith_arr_eq_ok h
    rw [all, allInItems_eq_nil_iff]
    intro y hy
    obtain ⟨x, hx, hxy⟩ := exists_rel_of_mem_right hys hy
    exact ih x hx y hxy
  | _ =>
    intro y h
    rw [inlineWith] at h
    cases h
    rfl

theorem inlineWith_eq_self (h : all j = []) : inlineWith follow j = .ok j := by
  induction j using Json.induction_of_parts with
  | obj ms ih =>
    have hr : of? ms = none := of?_members_of_all_eq_nil h
    have hms : inlineMembers follow false ms = .ok ms := by
      rw [inlineMembers_eq_ok_iff, kept_false, List.forall₂_same]
      exact fun m hm => ⟨rfl, ih m hm (all_eq_nil_of_mem_members h hm)⟩
    rw [inlineWith, hr]
    exact bind_eq_ok_iff.mpr ⟨ms, hms, rfl⟩
  | arr xs ih =>
    have hxs : inlineItems follow xs = .ok xs := by
      rw [inlineItems_eq_ok_iff, List.forall₂_same]
      intro x hx
      rw [all, allInItems_eq_nil_iff] at h
      exact ih x hx (h x hx)
    rw [inlineWith]
    exact bind_eq_ok_iff.mpr ⟨xs, hxs, rfl⟩
  | _ => rfl

/-- What a call of the recursion inlines has no references, whichever places are open. -/
theorem all_eq_nil_of_inline {t : FileTree} {places : List String} {doc : Document} :
    ∀ y, inline t places doc j = .ok y → all y = [] := by
  induction hn : places.length using Nat.strong_induction_on generalizing places doc j with
  | _ n ih =>
  subst hn
  rw [inline_eq]
  refine all_eq_nil_of_inlineWith fun reference y h => ?_
  obtain ⟨target, -, h⟩ := bind_eq_ok_iff.mp h
  split at h
  · next hp => exact ih _ (length_close_lt hp) rfl y h
  · cases h

theorem all_subset_of_at? (h : j.at? path = some v) : all v ⊆ all j := by
  induction path generalizing j with
  | nil =>
    cases h
    exact List.Subset.refl _
  | cons step path ih =>
    obtain ⟨child, hc, h⟩ := Json.at?_cons_eq_some_iff.mp h
    refine List.Subset.trans (ih h) ?_
    unfold Json.step? at hc
    split at hc
    · rw [all]
      exact List.Subset.trans (all_subset_of_mem_members (Members.mem_of_get? hc))
        (List.subset_append_right _ _)
    · rw [all]
      exact all_subset_of_mem_items (List.mem_of_getElem? hc)
    · cases hc

end Reference

open Reference

/-- In what inlining makes, no object at any place has a text under `$ref`. So inlining it once more
gives the same value, members in the same order, from any directory and with any files. -/
theorem inlineReferences_again {t : FileTree} {value r : Json} {directory : String}
    (h : inlineReferences t value directory = .ok r) :
    (∀ (path : List Json.Step) (ms : Members), r.at? path = some (.obj ms) →
      ∀ reference, ms.get? "$ref" ≠ some (.str reference)) ∧
    ∀ (t' : FileTree) (directory' : String), inlineReferences t' r directory' = .ok r := by
  have hnil : all r = [] := all_eq_nil_of_inline r h
  constructor
  · intro path ms hp reference hr
    have hsub : all (.obj ms) = [] := List.subset_nil.mp (hnil ▸ all_subset_of_at? hp)
    have hnone : of? ms = none := of?_members_of_all_eq_nil hsub
    rw [of?, hr] at hnone
    cases hnone
  · intro t' directory'
    rw [inlineReferences, inline_eq]
    exact inlineWith_eq_self hnil

def linkedFolder : Json :=
  .obj [("notes", .arr [.obj [("title", .str "Note"), ("$ref", .str "note.json#/note")]]),
    ("last", .obj [("$ref", .str "#/notes/0")]), ("$ref", .bool true)]

def noteText : String :=
  "\x7b\"note\":\x7b\"text\":\x7b\"$ref\":\"#/text\"\x7d\x7d," ++
    "\"text\":\x7b\"type\":\"string\"\x7d\x7d"

def noteTree : FileTree where
  entries := [(["note.json"], .file (.text noteText))]
  current := []

def inlinedFolder : Json :=
  let note := .obj [("title", .str "Note"), ("text", .obj [("type", .str "string")])]
  .obj [("notes", .arr [note]), ("last", note), ("$ref", .bool true)]

theorem inlineReferences_linkedFolder :
    inlineReferences noteTree linkedFolder "" = .ok inlinedFolder ∧
      inlineReferences ⟨[], []⟩ inlinedFolder "elsewhere" = .ok inlinedFolder := by
  have h : inlineReferences noteTree linkedFolder "" = .ok inlinedFolder := by decide +kernel
  exact ⟨h, (inlineReferences_again h).2 ⟨[], []⟩ "elsewhere"⟩

end SchemaRoutes
