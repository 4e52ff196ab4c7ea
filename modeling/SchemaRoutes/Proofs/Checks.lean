import Mathlib.Data.List.Forall2

/-! # Checks in sequence

A computation that runs through checks in order and stops at the first that fails. Which check that
is decides its outcome.
-/

namespace SchemaRoutes

variable {α β γ ε : Type} {holds : α → Prop} {error : α → ε}

inductive FirstFailure (holds : α → Prop) : List α → α → Prop where
  | here {c : α} {cs : List α} : ¬ holds c → FirstFailure holds (c :: cs) c
  | later {c d : α} {cs : List α} : holds c → FirstFailure holds cs d →
      FirstFailure holds (c :: cs) d

theorem FirstFailure.mem {cs : List α} {c : α} (h : FirstFailure holds cs c) : c ∈ cs := by
  induction h with
  | here => exact .head _
  | later _ _ ih => exact .tail _ ih

theorem FirstFailure.not_holds {cs : List α} {c : α} (h : FirstFailure holds cs c) : ¬ holds c := by
  induction h with
  | here hn => exact hn
  | later _ _ ih => exact ih

theorem FirstFailure.unique {cs : List α} {c d : α} (h : FirstFailure holds cs c)
    (h' : FirstFailure holds cs d) : c = d := by
  induction h with
  | here hn =>
    cases h' with
    | here => rfl
    | later hc _ => exact absurd hc hn
  | later hc _ ih =>
    cases h' with
    | here hn => exact absurd hc hn
    | later _ h' => exact ih h'

theorem FirstFailure.append_iff {cs ds : List α} {c : α} :
    FirstFailure holds (cs ++ ds) c ↔
      FirstFailure holds cs c ∨ (∀ d ∈ cs, holds d) ∧ FirstFailure holds ds c := by
  induction cs with
  | nil => exact ⟨fun h => .inr ⟨nofun, h⟩, fun h => h.elim nofun And.right⟩
  | cons b cs ih =>
    rw [List.cons_append]
    constructor
    · intro h
      cases h with
      | here hn => exact .inl (.here hn)
      | later hb h =>
        rcases ih.mp h with h | ⟨ha, h⟩
        · exact .inl (.later hb h)
        · exact .inr ⟨List.forall_mem_cons.mpr ⟨hb, ha⟩, h⟩
    · rintro (h | ⟨ha, h⟩)
      · cases h with
        | here hn => exact .here hn
        | later hb h => exact .later hb (ih.mpr (.inl h))
      · obtain ⟨hb, ha⟩ := List.forall_mem_cons.mp ha
        exact .later hb (ih.mpr (.inr ⟨ha, h⟩))

theorem forall_or_exists_firstFailure (holds : α → Prop) (cs : List α) :
    (∀ c ∈ cs, holds c) ∨ ∃ c, FirstFailure holds cs c := by
  induction cs with
  | nil => exact .inl nofun
  | cons b cs ih =>
    by_cases hb : holds b
    · rcases ih with ha | ⟨c, h⟩
      · exact .inl (List.forall_mem_cons.mpr ⟨hb, ha⟩)
      · exact .inr ⟨c, .later hb h⟩
    · exact .inr ⟨b, .here hb⟩

theorem FirstFailure.map {δ : Type} {f : δ → α} {cs : List δ} {c : δ}
    (h : FirstFailure (fun c => holds (f c)) cs c) : FirstFailure holds (cs.map f) (f c) := by
  induction h with
  | here hn => exact .here hn
  | later hb _ ih => exact .later hb ih

/-- The computation has the result if all checks hold, and else the error of the first that does
not. -/
structure Governed (holds : α → Prop) (error : α → ε) (checks : List α) (x : Except ε β)
    (result : β) : Prop where
  ok_of : (∀ c ∈ checks, holds c) → x = .ok result
  error_of : ∀ c, FirstFailure holds checks c → x = .error (error c)

namespace Governed

variable {checks checks' : List α} {c : α} {x : Except ε β} {f : β → Except ε γ} {result : β}
  {result' : γ} {e : ε}

theorem eq_ok_iff (g : Governed holds error checks x result) {b : β} :
    x = .ok b ↔ (∀ c ∈ checks, holds c) ∧ b = result := by
  constructor
  · intro h
    rcases forall_or_exists_firstFailure holds checks with ha | ⟨c, hc⟩
    · exact ⟨ha, Except.ok.inj (h.symm.trans (g.ok_of ha))⟩
    · cases h.symm.trans (g.error_of c hc)
  · rintro ⟨ha, rfl⟩
    exact g.ok_of ha

theorem eq_error_iff (g : Governed holds error checks x result) :
    x = .error e ↔ ∃ c, FirstFailure holds checks c ∧ e = error c := by
  constructor
  · intro h
    rcases forall_or_exists_firstFailure holds checks with ha | ⟨c, hc⟩
    · cases h.symm.trans (g.ok_of ha)
    · exact ⟨c, hc, Except.error.inj (h.symm.trans (g.error_of c hc))⟩
  · rintro ⟨c, hc, rfl⟩
    exact g.error_of c hc

theorem pure : Governed holds error [] (.ok result) result where
  ok_of _ := rfl
  error_of := nofun

theorem cons (hf : ¬ holds c → x = .error (error c))
    (hc : holds c → Governed holds error checks x result) :
    Governed holds error (c :: checks) x result where
  ok_of h := by
    obtain ⟨hb, ha⟩ := List.forall_mem_cons.mp h
    exact (hc hb).ok_of ha
  error_of d h := by
    cases h with
    | here hn => exact hf hn
    | later hb h => exact (hc hb).error_of d h

/-- What comes second may rely on the checks of what comes first. -/
theorem bind (g : Governed holds error checks x result)
    (g' : (∀ c ∈ checks, holds c) → Governed holds error checks' (f result) result') :
    Governed holds error (checks ++ checks') (x >>= f) result' where
  ok_of h := by
    obtain ⟨ha, ha'⟩ := List.forall_mem_append.mp h
    rw [g.ok_of ha]
    exact (g' ha).ok_of ha'
  error_of c h := by
    rcases FirstFailure.append_iff.mp h with h | ⟨ha, h⟩
    · rw [g.error_of c h]
      rfl
    · rw [g.ok_of ha]
      exact (g' ha).error_of c h

theorem skip (before : List α) (hc : holds c)
    (g : Governed holds error (before ++ c :: checks) x result) :
    Governed holds error (before ++ checks) x result where
  ok_of h := by
    obtain ⟨hb, ha⟩ := List.forall_mem_append.mp h
    exact g.ok_of (List.forall_mem_append.mpr ⟨hb, List.forall_mem_cons.mpr ⟨hc, ha⟩⟩)
  error_of d h := by
    refine g.error_of d (FirstFailure.append_iff.mpr ?_)
    rcases FirstFailure.append_iff.mp h with h | ⟨hb, h⟩
    · exact .inl h
    · exact .inr ⟨hb, .later hc h⟩

theorem comap {δ : Type} {f : δ → α} {checks : List δ}
    (g : Governed holds error (checks.map f) x result) :
    Governed (fun c => holds (f c)) (fun c => error (f c)) checks x result where
  ok_of h := g.ok_of (List.forall_mem_map.mpr h)
  error_of c h := g.error_of (f c) h.map

/-- Of two computations whose checks hold alike, one ends as the other does. -/
theorem eq_map {ε' β' : Type} {holds' : α → Prop} {error' : α → ε'} {x' : Except ε' β'}
    {result' : β'} {k : β → β'} {h : ε → ε'} (g : Governed holds error checks x result)
    (g' : Governed holds' error' checks x' result') (holds_iff : ∀ c, holds' c ↔ holds c)
    (error_eq : ∀ c, error' c = h (error c)) (result_eq : result' = k result) :
    x' = (x.map k).mapError h := by
  obtain rfl : holds' = holds := funext fun c => propext (holds_iff c)
  rcases forall_or_exists_firstFailure holds' checks with ha | ⟨c, hc⟩
  · rw [g.ok_of ha, g'.ok_of ha, result_eq]
    rfl
  · rw [g.error_of c hc, g'.error_of c hc, error_eq]
    rfl

theorem exists_cons [Nonempty β] (hf : ¬ holds c → x = .error (error c))
    (hc : holds c → ∃ result, Governed holds error checks x result) :
    ∃ result, Governed holds error (c :: checks) x result := by
  by_cases h : holds c
  · obtain ⟨result, g⟩ := hc h
    exact ⟨result, .cons (absurd h) fun _ => g⟩
  · exact ⟨Classical.ofNonempty, .cons hf (absurd · h)⟩

theorem exists_bind [Nonempty γ] (g : Governed holds error checks x result)
    (g' : (∀ c ∈ checks, holds c) → ∃ result', Governed holds error checks' (f result) result') :
    ∃ result', Governed holds error (checks ++ checks') (x >>= f) result' := by
  by_cases h : ∀ c ∈ checks, holds c
  · obtain ⟨result', g'⟩ := g' h
    exact ⟨result', g.bind fun _ => g'⟩
  · exact ⟨Classical.ofNonempty, g.bind (absurd · h)⟩

end Governed

theorem bind_eq_ok_iff {x : Except ε β} {f : β → Except ε γ} {c : γ} :
    x >>= f = .ok c ↔ ∃ b, x = .ok b ∧ f b = .ok c := by
  cases x with
  | error e => exact ⟨nofun, nofun⟩
  | ok b => exact ⟨fun h => ⟨b, rfl, h⟩, fun ⟨_, rfl, h⟩ => h⟩

theorem bind_eq_error_iff {x : Except ε β} {f : β → Except ε γ} {e : ε} :
    x >>= f = .error e ↔ x = .error e ∨ ∃ b, x = .ok b ∧ f b = .error e := by
  cases x with
  | error e' =>
    constructor
    · intro h
      cases h
      exact .inl rfl
    · rintro (h | ⟨b, h, -⟩) <;> cases h
      rfl
  | ok b => exact ⟨fun h => .inr ⟨b, rfl, h⟩, fun h => h.elim nofun fun ⟨_, rfl, h⟩ => h⟩

theorem map_eq_ok_iff {x : Except ε β} {f : β → γ} {c : γ} :
    x.map f = .ok c ↔ ∃ b, x = .ok b ∧ f b = c := by
  cases x with
  | error e => exact ⟨nofun, nofun⟩
  | ok b => simp [Except.map]

theorem map_eq_error_iff {x : Except ε β} {f : β → γ} {e : ε} :
    x.map f = .error e ↔ x = .error e := by
  cases x <;> simp [Except.map]

theorem forM_eq_ok_iff {f : α → Except ε Unit} {xs : List α} :
    xs.forM f = .ok () ↔ ∀ x ∈ xs, f x = .ok () := by
  induction xs with
  | nil => exact ⟨fun _ => nofun, fun _ => rfl⟩
  | cons x xs ih =>
    rw [List.forall_mem_cons, ← ih]
    change f x >>= (fun _ => xs.forM f) = _ ↔ _
    cases hx : f x with
    | ok u => exact ⟨fun h => ⟨rfl, h⟩, And.right⟩
    | error e => exact ⟨nofun, fun h => nomatch h.1⟩

theorem exists_of_forM_eq_error {f : α → Except ε Unit} {xs : List α} {e : ε}
    (h : xs.forM f = .error e) : ∃ x ∈ xs, f x = .error e := by
  induction xs with
  | nil => cases h
  | cons x xs ih =>
    rcases bind_eq_error_iff.mp h with h | ⟨_, -, h⟩
    · exact ⟨x, .head _, h⟩
    · obtain ⟨y, hy, he⟩ := ih h
      exact ⟨y, .tail _ hy, he⟩

theorem mapM_cons_eq_ok_iff {f : α → Except ε β} {x : α} {xs : List α} {ys : List β} :
    (x :: xs).mapM f = .ok ys ↔
      ∃ y ys', f x = .ok y ∧ xs.mapM f = .ok ys' ∧ ys = y :: ys' := by
  rw [List.mapM_cons]
  cases hx : f x with
  | error e => simp [bind, Except.bind]
  | ok y => cases hxs : xs.mapM f <;> simp [bind, Except.bind, pure, Except.pure, eq_comm]

theorem mapM_eq_ok_iff {f : α → Except ε β} {xs : List α} {ys : List β} :
    xs.mapM f = .ok ys ↔ List.Forall₂ (fun x y => f x = .ok y) xs ys := by
  induction xs generalizing ys with
  | nil => simp [pure, Except.pure, eq_comm]
  | cons x xs ih =>
    rw [mapM_cons_eq_ok_iff, List.forall₂_cons_left_iff]
    simp only [ih]

theorem exists_rel_of_mem_right {r : α → β → Prop} {xs : List α} {ys : List β} {y : β}
    (h : List.Forall₂ r xs ys) (hy : y ∈ ys) : ∃ x ∈ xs, r x y := by
  induction h with
  | nil => cases hy
  | cons hx _ ih =>
    rcases List.mem_cons.mp hy with rfl | hy
    · exact ⟨_, .head _, hx⟩
    · obtain ⟨x, hm, hx⟩ := ih hy
      exact ⟨x, .tail _ hm, hx⟩

theorem exists_mem_of_mapM_eq_ok {f : α → Except ε β} {xs : List α} {ys : List β} {y : β}
    (h : xs.mapM f = .ok ys) (hy : y ∈ ys) : ∃ x ∈ xs, f x = .ok y := by
  obtain ⟨x, hx, he⟩ := exists_rel_of_mem_right (mapM_eq_ok_iff.mp h) hy
  exact ⟨x, hx, he⟩

theorem foldlM_induction {p : β → Prop} {f : β → α → Except ε β} {xs : List α} {b b' : β}
    (start : p b) (step : ∀ b x b', p b → f b x = .ok b' → p b')
    (h : xs.foldlM f b = .ok b') : p b' := by
  induction xs generalizing b with
  | nil =>
    cases h
    exact start
  | cons x xs ih =>
    rw [List.foldlM_cons] at h
    cases hx : f b x with
    | ok b₁ =>
      rw [hx] at h
      exact ih (step _ _ _ start hx) h
    | error e =>
      rw [hx] at h
      cases h

/-- A computation that stops has got as far as some element, and stops there. -/
theorem exists_of_foldlM_eq_error {f : β → α → Except ε β} {xs : List α} {b : β} {e : ε}
    (h : xs.foldlM f b = .error e) :
    ∃ n x b', xs[n]? = some x ∧ (xs.take n).foldlM f b = .ok b' ∧ f b' x = .error e := by
  induction xs generalizing b with
  | nil => cases h
  | cons x xs ih =>
    rw [List.foldlM_cons, bind_eq_error_iff] at h
    rcases h with h | ⟨b₁, hx, h⟩
    · exact ⟨0, x, b, rfl, rfl, h⟩
    · obtain ⟨n, y, b', hn, hb, hy⟩ := ih h
      refine ⟨n + 1, y, b', hn, ?_, hy⟩
      rw [List.take_succ_cons, List.foldlM_cons, hx]
      exact hb

theorem foldlM_eq_map {ε' β' : Type} {f : β → α → Except ε β} {f' : β' → α → Except ε' β'}
    {k : β → β'} {h : ε → ε'} {xs : List α} (b : β)
    (step : ∀ x ∈ xs, ∀ b, f' (k b) x = ((f b x).map k).mapError h) :
    xs.foldlM f' (k b) = ((xs.foldlM f b).map k).mapError h := by
  induction xs generalizing b with
  | nil => rfl
  | cons x xs ih =>
    obtain ⟨hx, hxs⟩ := List.forall_mem_cons.mp step
    rw [List.foldlM_cons, List.foldlM_cons, hx b]
    cases f b x with
    | error e => rfl
    | ok b' => exact ih b' hxs

section State

variable {σ : Type} {x : ExceptT ε (StateM σ) β} {k : β → ExceptT ε (StateM σ) γ} {s s' : σ}

theorem run_bind_of_ok {b : β} (h : x.run s = (.ok b, s')) : (x >>= k).run s = (k b).run s' := by
  change ExceptT.bindCont k (x.run s).1 (x.run s).2 = _
  rw [h]
  rfl

theorem run_bind_of_error {e : ε} (h : x.run s = (.error e, s')) :
    (x >>= k).run s = (.error e, s') := by
  change ExceptT.bindCont k (x.run s).1 (x.run s).2 = _
  rw [h]
  rfl

end State

end SchemaRoutes
