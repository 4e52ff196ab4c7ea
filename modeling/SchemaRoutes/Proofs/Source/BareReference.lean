import SchemaRoutes.Proofs.Json.WellFormed
import SchemaRoutes.Proofs.Source.Inlined

/-! # References without other members

Inlining goes on at the same place in what it makes, so the outcome at a place can be told from the
value there. An object with nothing but a reference takes over all members of what the target comes
to. This is the whole of the target where that is an object. A target of another kind has no members
to take over, and an empty object is left.
-/

namespace SchemaRoutes

theorem Json.obj_members_eq_iff {j : Json} : obj j.members = j ↔ j.isObject = true := by
  cases j <;> simp [members, isObject]

namespace Reference

variable {ε : Type} {follow : String → Except ε Json} {ms own target : Members} {j v y : Json}
  {reference : String} {step : Json.Step} {path : List Json.Step}

/-! ## What stands at a place -/

theorem rel_getElem? {α β : Type} {r : α → β → Prop} {xs : List α} {ys : List β}
    (h : List.Forall₂ r xs ys) (i : ℕ) : Option.Rel r xs[i]? ys[i]? := by
  induction h generalizing i with
  | nil => exact .none
  | cons hx _ ih =>
    cases i with
    | zero => exact .some hx
    | succ i => exact ih i

theorem exists_of_rel {α β : Type} {r : α → β → Prop} {a : α} {x : Option β}
    (h : Option.Rel r (some a) x) : ∃ b, x = some b ∧ r a b := by
  cases h with
  | some h => exact ⟨_, rfl, h⟩

/-- No reference is left, and all else is still there under the same key or at the same index. -/
theorem exists_step?_of_inlineWith (h : inlineWith follow j = .ok y) (hs : j.step? step = some v)
    (hv : v.str? = none) : ∃ w, y.step? step = some w ∧ inlineWith follow v = .ok w := by
  unfold Json.step? at hs
  split at hs
  · next ms name =>
    cases hr : of? ms with
    | none =>
      obtain ⟨ms', hms, rfl⟩ := inlineWith_of_of?_eq_none hr h
      rw [inlineMembers_eq_ok_iff, kept_false] at hms
      exact exists_of_rel (hs ▸ rel_get? hms name)
    | some reference =>
      obtain ⟨target, own, -, hown, rfl⟩ := inlineWith_of_of?_eq_some hr h
      have hname : name ≠ "$ref" := by
        rintro rfl
        rw [of?, hs] at hr
        cases hv.symm.trans hr
      have hrel := rel_get? (inlineMembers_eq_ok_iff.mp hown) name
      rw [get?_kept_true hname, hs] at hrel
      obtain ⟨w, hw, hvw⟩ := exists_of_rel hrel
      refine ⟨w, ?_, hvw⟩
      change (adopt own target.members).get? name = some w
      rw [get?_adopt, hw, Option.some_or]
  · next xs i =>
    obtain ⟨ys, hys, rfl⟩ := inlineWith_arr_eq_ok h
    exact exists_of_rel (hs ▸ rel_getElem? hys i)
  · cases hs

theorem str?_of_at? (h : j.at? path = some v) (hv : v.str? = none) : j.str? = none := by
  cases path with
  | nil =>
    cases h
    exact hv
  | cons step path =>
    obtain ⟨child, hc, -⟩ := Json.at?_cons_eq_some_iff.mp h
    cases j with
    | str s => cases step <;> cases hc
    | _ => rfl

theorem exists_at?_of_inlineWith (h : inlineWith follow j = .ok y) (hp : j.at? path = some v)
    (hv : v.str? = none) : ∃ w, y.at? path = some w ∧ inlineWith follow v = .ok w := by
  induction path generalizing j y with
  | nil =>
    cases hp
    exact ⟨y, rfl, h⟩
  | cons step path ih =>
    obtain ⟨child, hc, hp⟩ := Json.at?_cons_eq_some_iff.mp hp
    obtain ⟨child', hc', hchild⟩ := exists_step?_of_inlineWith h hc (str?_of_at? hp hv)
    obtain ⟨w, hw, hvw⟩ := ih hchild hp
    exact ⟨w, Json.at?_cons_eq_some_iff.mpr ⟨child', hc', hw⟩, hvw⟩

/-! ## No key comes twice -/

theorem nodup_keys_adopt (h : own.keys.Nodup) : (adopt own target).keys.Nodup := by
  induction target generalizing own with
  | nil => exact h
  | cons m target ih =>
    rw [adopt_cons]
    refine ih ?_
    split
    · exact h
    · next hm =>
      rw [Members.keys_append, List.nodup_append]
      refine ⟨h, List.nodup_singleton _, fun k hk k' hk' he => hm ?_⟩
      rw [Members.has_iff, ← List.mem_singleton.mp hk', ← he]
      exact hk

theorem adopt_of_fresh (hn : target.keys.Nodup) (hd : ∀ k ∈ target.keys, k ∉ own.keys) :
    adopt own target = own ++ target := by
  induction target generalizing own with
  | nil => exact (List.append_nil own).symm
  | cons m target ih =>
    obtain ⟨key, value⟩ := m
    rw [Members.keys_cons, List.nodup_cons] at hn
    have hkey : key ∉ own.keys := hd key (.head _)
    rw [adopt_cons, if_neg (mt Members.has_iff.mp hkey), ih hn.2, List.append_assoc,
      List.singleton_append]
    intro k hk
    rw [Members.keys_append, List.mem_append, not_or]
    refine ⟨hd k (.tail _ hk), fun he => hn.1 ?_⟩
    obtain rfl : k = key := List.mem_singleton.mp he
    exact hk

theorem keys_of_inlineMembers {dropReference : Bool}
    (h : inlineMembers follow dropReference ms = .ok own) :
    own.keys = (kept dropReference ms).keys := by
  rw [inlineMembers_eq_ok_iff] at h
  generalize kept dropReference ms = ns at h ⊢
  induction h with
  | nil => rfl
  | cons hm _ ih => exact congrArg₂ List.cons hm.1.symm ih

theorem nodup_keys_of_inlineWith (h : inlineWith follow j = .ok y) (hn : j.members.keys.Nodup) :
    y.members.keys.Nodup := by
  cases j with
  | obj ms =>
    have hkept : ∀ dropReference, (kept dropReference ms).keys.Nodup := fun _ =>
      hn.sublist (List.filter_sublist.map _)
    cases hr : of? ms with
    | none =>
      obtain ⟨ms', hms, rfl⟩ := inlineWith_of_of?_eq_none hr h
      exact keys_of_inlineMembers hms ▸ hkept false
    | some reference =>
      obtain ⟨target, own, -, hown, rfl⟩ := inlineWith_of_of?_eq_some hr h
      exact nodup_keys_adopt (keys_of_inlineMembers hown ▸ hkept true)
  | _ =>
    have hy := isObject_of_inlineWith h
    cases y with
    | obj ms => cases hy
    | _ => exact List.nodup_nil

theorem wellFormed_of_foldlM {index? : String → Option ℕ} {keys : List String} (hj : j.WellFormed)
    (h : keys.foldlM (Json.childBy? index?) j = some v) : v.WellFormed := by
  induction keys generalizing j with
  | nil =>
    cases h
    exact hj
  | cons key keys ih =>
    rw [List.foldlM_cons] at h
    obtain ⟨child, hc, h⟩ := Option.bind_eq_some_iff.mp h
    refine ih ?_ h
    unfold Json.childBy? at hc
    split at hc
    · obtain ⟨i, -, hi⟩ := Option.bind_eq_some_iff.mp hc
      exact Json.WellFormed.of_mem_items hj (List.mem_of_getElem? hi)
    · exact hj.of_get? hc

section Located

variable {t : FileTree} {home doc : Document} {target : Target}

theorem FoundIn.wellFormed (h : FoundIn t home doc) (hw : home.root.WellFormed) :
    doc.root.WellFormed := by
  cases h with
  | home => exact hw
  | file _ hread _ _ => exact Json.wellFormed_of_read? hread

theorem wellFormed_of_locate (hd : FoundIn t home doc) (hw : home.root.WellFormed)
    (h : locate t doc reference = .ok target) : target.value.WellFormed := by
  obtain ⟨hfound, -, hpoint⟩ := locate_eq_ok hd h
  unfold point at hpoint
  split at hpoint
  · next hp =>
    cases hpoint
    exact wellFormed_of_foldlM (hfound.wellFormed hw) hp
  · cases hpoint

end Located

/-- A lone reference takes over all members, in their order, of what it leads to. -/
theorem inlineWith_lone (h : inlineWith follow (.obj [("$ref", .str reference)]) = .ok y) :
    ∃ x, follow reference = .ok x ∧ y = .obj (adopt [] x.members) := by
  have hr : of? [("$ref", .str reference)] = some reference := rfl
  obtain ⟨x, own, hx, hown, rfl⟩ := inlineWith_of_of?_eq_some hr h
  have hempty : own = [] := by
    cases hown
    rfl
  exact ⟨x, hx, hempty ▸ rfl⟩

end Reference

open Reference

/-- Where an object has nothing but a reference, inlining leaves the members of what the target
comes to in its own document. This is all that the target comes to exactly if it is an object. -/
theorem inlineReferences_lone {t : FileTree} {value r : Json} {directory reference : String}
    {path : List Json.Step} (hw : value.WellFormed)
    (h : inlineReferences t value directory = .ok r)
    (hp : value.at? path = some (.obj [("$ref", .str reference)])) :
    ∃ target x, locate t ⟨value, directory, ""⟩ reference = .ok target ∧
      Ends t target.document target.value (.ok x) ∧
      r.at? path = some (.obj x.members) ∧
      (r.at? path = some x ↔ target.value.isObject = true) := by
  rw [inlineReferences, inline_eq] at h
  obtain ⟨w, hat, hlone⟩ := exists_at?_of_inlineWith h hp rfl
  obtain ⟨x, hx, rfl⟩ := inlineWith_lone hlone
  obtain ⟨target, hl, hx⟩ := bind_eq_ok_iff.mp hx
  split at hx
  · have hends := ends_of_inline_eq_ok hx
    rw [inline_eq] at hx
    have hn : x.members.keys.Nodup :=
      nodup_keys_of_inlineWith hx (wellFormed_of_locate .home hw hl).members.keys_nodup
    rw [adopt_of_fresh hn fun _ _ => List.not_mem_nil, List.nil_append] at hat
    refine ⟨target, x, hl, hends, hat, ?_⟩
    rw [hat, ← isObject_of_inlineWith hx, Option.some.injEq, Json.obj_members_eq_iff]
  · cases hx

def lockedNote : Json :=
  .obj [("never", .bool false),
    ("secret", .obj [("$ref", .str "#/never")]),
    ("text", .obj [("$ref", .str "#/content")]),
    ("content", .obj [("title", .str "Text"), ("$ref", .str "#/string")]),
    ("string", .obj [("type", .str "string")])]

def inlinedLockedNote : Json :=
  let text := .obj [("title", .str "Text"), ("type", .str "string")]
  .obj [("never", .bool false), ("secret", .obj []), ("text", text), ("content", text),
    ("string", .obj [("type", .str "string")])]

theorem inlineReferences_lone_text : ∃ target x,
    locate ⟨[], []⟩ ⟨lockedNote, "", ""⟩ "#/content" = .ok target ∧
      Ends ⟨[], []⟩ target.document target.value (.ok x) ∧
      inlinedLockedNote.at? [.key "text"] = some x := by
  have hw : lockedNote.WellFormed := by
    simp [lockedNote, Json.WellFormed, Json.WellFormedMembers]
  have h : inlineReferences ⟨[], []⟩ lockedNote "" = .ok inlinedLockedNote := by decide +kernel
  have hp : lockedNote.at? [.key "text"] = some (.obj [("$ref", .str "#/content")]) := rfl
  obtain ⟨target, x, hl, hends, -, hiff⟩ := inlineReferences_lone hw h hp
  refine ⟨target, x, hl, hends, hiff.mpr ?_⟩
  have hobject : (locate ⟨[], []⟩ ⟨lockedNote, "", ""⟩ "#/content").map (·.value.isObject) =
      .ok true := by decide +kernel
  rw [hl] at hobject
  exact Except.ok.inj hobject

theorem inlineReferences_lone_secret :
    lockedNote.at? [.key "secret"] = some (.obj [("$ref", .str "#/never")]) ∧
    (∃ target, locate ⟨[], []⟩ ⟨lockedNote, "", ""⟩ "#/never" = .ok target ∧
      target.value = .bool false ∧
      Ends ⟨[], []⟩ target.document target.value (.ok (.bool false))) ∧
    inlineReferences ⟨[], []⟩ lockedNote "" = .ok inlinedLockedNote ∧
    inlinedLockedNote.at? [.key "secret"] = some (.obj []) := by
  refine ⟨rfl, ?_, by decide +kernel, rfl⟩
  have hvalue : (locate ⟨[], []⟩ ⟨lockedNote, "", ""⟩ "#/never").map Target.value =
      .ok (.bool false) := by decide +kernel
  obtain ⟨target, hl, hv⟩ := map_eq_ok_iff.mp hvalue
  exact ⟨target, hl, hv, 1, by rw [hv]; rfl⟩

end SchemaRoutes
