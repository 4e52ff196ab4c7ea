import Mathlib.Data.List.Basic
import SchemaRoutes.Proofs.Json.Members
import SchemaRoutes.Source.Reference

/-! # Inlining from given targets

Inlining asks in a fixed order what each reference leads to, and stops when it is told nothing. So
two ways to follow references that are tied to each other have results that are tied in the same
way, and when a result is an error, the first reference without a target has to be blamed.
-/

namespace SchemaRoutes

variable {α α' β β' ε ε' : Type} {left : ε → Prop} {right : ε' → Prop} {both : ε → ε' → Prop}
  {rel : α → α' → Prop} {rel' : β → β' → Prop}

/-- Two computations whose values are related. Each may fail alone in some ways, and when both fail
they may do so in some further ways. -/
inductive Tied (left : ε → Prop) (right : ε' → Prop) (both : ε → ε' → Prop)
    (rel : α → α' → Prop) : Except ε α → Except ε' α' → Prop where
  | ok {a : α} {a' : α'} : rel a a' → Tied left right both rel (.ok a) (.ok a')
  | left {e : ε} {y : Except ε' α'} : left e → Tied left right both rel (.error e) y
  | right {x : Except ε α} {e : ε'} : right e → Tied left right both rel x (.error e)
  | both {e : ε} {e' : ε'} : both e e' → Tied left right both rel (.error e) (.error e')

namespace Tied

theorem bind {x : Except ε α} {y : Except ε' α'} {f : α → Except ε β} {g : α' → Except ε' β'}
    (h : Tied left right both rel x y)
    (hf : ∀ a a', rel a a' → Tied left right both rel' (f a) (g a')) :
    Tied left right both rel' (x >>= f) (y >>= g) := by
  cases h with
  | ok h => exact hf _ _ h
  | left h => exact .left h
  | right h => exact .right h
  | both h => exact .both h

theorem bind_eq {x : Except ε α} {y : Except ε' α} {f : α → Except ε β} {g : α → Except ε' β'}
    (h : Tied left right both Eq x y) (hf : ∀ a, Tied left right both rel' (f a) (g a)) :
    Tied left right both rel' (x >>= f) (y >>= g) :=
  h.bind fun a _ he => he ▸ hf a

theorem eq_ok {x : Except ε α} {y : Except ε' α'} (h : Tied left right both rel x y) :
    Tied left right both (fun a a' => rel a a' ∧ x = .ok a ∧ y = .ok a') x y := by
  cases h with
  | ok h => exact .ok ⟨h, rfl, rfl⟩
  | left h => exact .left h
  | right h => exact .right h
  | both h => exact .both h

theorem refl {rel : α → α → Prop} {both : ε → ε → Prop} {left right : ε → Prop}
    (x : Except ε α) (hr : ∀ a, rel a a) (hb : ∀ e, both e e) : Tied left right both rel x x := by
  cases x with
  | ok a => exact .ok (hr a)
  | error e => exact .both (hb e)

end Tied

namespace Reference

variable {follow : String → Except ε Json} {follow' : String → Except ε' Json}

mutual

theorem inlineWith_tied : ∀ j : Json,
    (∀ r ∈ all j, Tied left right both Eq (follow r) (follow' r)) →
      Tied left right both Eq (inlineWith follow j) (inlineWith follow' j)
  | .obj ms, h => by
    rw [inlineWith, inlineWith]
    rw [all, List.forall_mem_append] at h
    cases hr : of? ms with
    | none => exact (inlineMembers_tied false ms h.2).bind_eq fun _ => .ok rfl
    | some reference =>
      rw [hr] at h
      exact (h.1 reference (.head _)).bind_eq fun _ =>
        (inlineMembers_tied true ms h.2).bind_eq fun _ => .ok rfl
  | .arr xs, h => by
    rw [inlineWith, inlineWith]
    exact (inlineItems_tied xs (by rwa [all] at h)).bind_eq fun _ => .ok rfl
  | .null, _ | .bool _, _ | .num _, _ | .str _, _ => by
    rw [inlineWith, inlineWith]
    exact .ok rfl
termination_by structural j => j

theorem inlineItems_tied : ∀ xs : List Json,
    (∀ r ∈ allInItems xs, Tied left right both Eq (follow r) (follow' r)) →
      Tied left right both Eq (inlineItems follow xs) (inlineItems follow' xs)
  | [], _ => .ok rfl
  | x :: xs, h => by
    rw [inlineItems, inlineItems]
    rw [allInItems, List.forall_mem_append] at h
    exact (inlineWith_tied x h.1).bind_eq fun _ =>
      (inlineItems_tied xs h.2).bind_eq fun _ => .ok rfl
termination_by structural xs => xs

theorem inlineMembers_tied (dropReference : Bool) : ∀ ms : Members,
    (∀ r ∈ allInMembers ms, Tied left right both Eq (follow r) (follow' r)) →
      Tied left right both Eq (inlineMembers follow dropReference ms)
        (inlineMembers follow' dropReference ms)
  | [], _ => .ok rfl
  | (k, x) :: ms, h => by
    rw [inlineMembers, inlineMembers]
    rw [allInMembers, List.forall_mem_append] at h
    split
    · exact inlineMembers_tied dropReference ms h.2
    · exact (inlineWith_tied x h.1).bind_eq fun _ =>
        (inlineMembers_tied dropReference ms h.2).bind_eq fun _ => .ok rfl
termination_by structural ms => ms

end

theorem inlineWith_congr {follow follow' : String → Except ε Json} {j : Json}
    (h : ∀ r ∈ all j, follow r = follow' r) : inlineWith follow j = inlineWith follow' j := by
  have ht : Tied (fun _ : ε => False) (fun _ : ε => False) Eq Eq
      (inlineWith follow j) (inlineWith follow' j) := by
    refine inlineWith_tied j fun r hr => ?_
    rw [h r hr]
    exact .refl _ (fun _ => rfl) fun _ => rfl
  generalize inlineWith follow j = x at ht ⊢
  generalize inlineWith follow' j = y at ht ⊢
  cases ht with
  | ok he => rw [he]
  | left he => exact he.elim
  | right he => exact he.elim
  | both he => rw [he]

/-- Of a failure, one reference is to blame: whoever fails at it in some way, and can fail only in
that way where a target was given, fails in that way. -/
theorem exists_blamed {j : Json} {e : ε} (h : inlineWith follow j = .error e) :
    ∃ r ∈ all j, follow r = .error e ∧
      ∀ {ε' : Type} (follow' : String → Except ε' Json) (p : ε' → Prop),
        (∃ e', follow' r = .error e' ∧ p e') →
        (∀ r' y, follow r' = .ok y → follow' r' = .ok y ∨ ∃ e', follow' r' = .error e' ∧ p e') →
        ∃ e', inlineWith follow' j = .error e' ∧ p e' := by
  -- `named` fails where `follow` does and says at which reference.
  let named (r : String) : Except (String × ε) Json := (follow r).mapError (r, ·)
  have hnamed : ∀ r ∈ all j, Tied (fun _ => False) (fun _ => False)
      (fun e e' => e = e'.2 ∧ e'.1 ∈ all j ∧ follow e'.1 = .error e'.2) Eq
      (follow r) (named r) := by
    intro r hr
    cases hf : follow r with
    | error e =>
      simp only [named, hf, Except.mapError]
      exact .both ⟨rfl, hr, hf⟩
    | ok y =>
      simp only [named, hf, Except.mapError]
      exact .ok rfl
  have hboth := inlineWith_tied j hnamed
  rw [h] at hboth
  cases hx : inlineWith named j with
  | ok y =>
    rw [hx] at hboth
    cases hboth
    contradiction
  | error blamed =>
    rw [hx] at hboth
    obtain ⟨r, e'⟩ := blamed
    obtain ⟨rfl, hr, hf⟩ : e = e' ∧ r ∈ all j ∧ follow r = .error e' := by
      cases hboth <;> first | contradiction | assumption
    refine ⟨r, hr, hf, fun follow' p hr' hok => ?_⟩
    -- `named` can fail elsewhere than at `r`, so only an error at `r` has to be matched.
    have htied : ∀ r' ∈ all j, Tied (fun e : String × ε => e.1 ≠ r) p (fun _ _ => False) Eq
        (named r') (follow' r') := by
      intro r' _
      by_cases hrr : r' = r
      · obtain ⟨e', he', hp⟩ := hr'
        rw [hrr, he']
        exact .right hp
      · cases hf' : follow r' with
        | error e =>
          simp only [named, hf', Except.mapError]
          exact .left hrr
        | ok y =>
          simp only [named, hf', Except.mapError]
          rcases hok r' y hf' with hy | ⟨e', he', hp⟩
          · rw [hy]
            exact .ok rfl
          · rw [he']
            exact .right hp
    have hx' := inlineWith_tied j htied
    rw [hx] at hx'
    generalize inlineWith follow' j = y at hx'
    cases hx' with
    | left hne => exact absurd rfl hne
    | right hp => exact ⟨_, rfl, hp⟩
    | both hf => exact hf.elim

theorem all_subset_of_mem_items {x : Json} {xs : List Json} (h : x ∈ xs) :
    all x ⊆ allInItems xs := by
  induction xs with
  | nil => cases h
  | cons y ys ih =>
    rw [allInItems]
    rcases List.mem_cons.mp h with rfl | h
    · exact List.subset_append_left _ _
    · exact List.Subset.trans (ih h) (List.subset_append_right _ _)

theorem all_subset_of_mem_members {m : String × Json} {ms : Members} (h : m ∈ ms) :
    all m.2 ⊆ allInMembers ms := by
  induction ms with
  | nil => cases h
  | cons n ns ih =>
    rw [allInMembers]
    rcases List.mem_cons.mp h with rfl | h
    · exact List.subset_append_left _ _
    · exact List.Subset.trans (ih h) (List.subset_append_right _ _)

theorem of?_eq_none {ms : Members} (h : ∀ m ∈ ms, m.1 = "$ref" → m.2.str? = none) :
    of? ms = none := by
  unfold of?
  cases hv : Members.get? ms "$ref" with
  | none => rfl
  | some v => exact h _ (Members.mem_of_get? hv) rfl

theorem all_obj_eq {ms : Members} (h : of? ms = none) : all (.obj ms) = allInMembers ms := by
  rw [all, h]
  rfl

theorem all_obj_of_not_mem {ms : Members} (h : "$ref" ∉ ms.keys) :
    all (.obj ms) = allInMembers ms := by
  refine all_obj_eq (of?_eq_none fun m hm hkey => ?_)
  exact absurd (hkey ▸ List.mem_map_of_mem hm) h

theorem allInMembers_append (ms ns : Members) :
    allInMembers (ms ++ ns) = allInMembers ms ++ allInMembers ns := by
  induction ms with
  | nil => rfl
  | cons m ms ih => rw [List.cons_append, allInMembers, allInMembers, ih, List.append_assoc]

theorem allInMembers_map {α : Type} (f : α → String × Json) (xs : List α) :
    allInMembers (xs.map f) = xs.flatMap fun x => all (f x).2 := by
  induction xs with
  | nil => rfl
  | cons x xs ih => rw [List.map_cons, allInMembers, ih, List.flatMap_cons]

theorem allInItems_map_eq_nil {α : Type} {f : α → Json} (h : ∀ a, all (f a) = []) (xs : List α) :
    allInItems (xs.map f) = [] := by
  induction xs with
  | nil => rfl
  | cons x xs ih => rw [List.map_cons, allInItems, h, ih, List.append_nil]

theorem all_subset_of_childBy? {index? : String → Option ℕ} {j x : Json} {key : String}
    (h : j.childBy? index? key = some x) : all x ⊆ all j := by
  unfold Json.childBy? at h
  split at h
  · obtain ⟨i, -, hi⟩ := Option.bind_eq_some_iff.mp h
    rw [all]
    exact all_subset_of_mem_items (List.mem_of_getElem? hi)
  · cases j with
    | obj ms =>
      obtain ⟨before, after, he, -⟩ := List.lookup_eq_some_iff.mp h
      have hm : (key, x) ∈ ms := by
        rw [show ms = before ++ (key, x) :: after from he]
        exact List.mem_append_right before (List.mem_cons_self ..)
      rw [all]
      exact List.Subset.trans (all_subset_of_mem_members hm) (List.subset_append_right _ _)
    | _ => cases h

theorem all_subset_of_foldlM {index? : String → Option ℕ} {keys : List String} {j x : Json}
    (h : keys.foldlM (Json.childBy? index?) j = some x) : all x ⊆ all j := by
  induction keys generalizing j with
  | nil =>
    cases h
    exact List.Subset.refl _
  | cons key keys ih =>
    rw [List.foldlM_cons] at h
    obtain ⟨child, hc, h⟩ := Option.bind_eq_some_iff.mp h
    exact List.Subset.trans (ih h) (all_subset_of_childBy? hc)

theorem all_subset_of_point {j x : Json} {fragment : String} (h : point j fragment = .ok x) :
    all x ⊆ all j := by
  unfold point at h
  split at h
  · next target hp =>
    cases h
    exact all_subset_of_foldlM hp
  · cases h

end Reference

end SchemaRoutes
