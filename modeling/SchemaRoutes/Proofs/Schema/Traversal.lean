import Mathlib.Data.List.Basic
import SchemaRoutes.Schema.Traversal

/-! # A traversal as a recursion

How many levels a traversal may go down does not matter once they are enough, so it is a recursion
on the schema: a node is left with what the visits of its children gave, in order.
-/

namespace SchemaRoutes.Traversal

def Decision.opened? : Decision → Option Members
  | descend (.obj ms) => some ms
  | descend _ | skip _ => none

theorem Decision.node_of_opened {d : Decision} {ms : Members} (h : d.opened? = some ms) :
    d.node = .obj ms := by
  cases d with
  | skip value => cases h
  | descend value =>
    cases value with
    | obj members =>
      cases h
      rfl
    | _ => cases h

namespace Visitor

variable {σ α : Type} {v : Visitor σ α} {levels : ℕ} {ctx : Context} {node : Json} {s s' : σ}
  {r : α × σ} {children : List (Slot × Json)}

/-- Visits of children in order that all end. -/
def visitEach (visit : Slot → Json → σ → α × σ) :
    List (Slot × Json) → σ → List (Slot × α) × σ
  | [], s => ([], s)
  | (slot, child) :: rest, s =>
    let first := visit slot child s
    let others := visitEach visit rest first.2
    ((slot, first.1) :: others.1, others.2)

theorem visitAll_cons {visit : Slot → Json → σ → Option (α × σ)} (c : Slot × Json)
    (rest : List (Slot × Json)) (s : σ) : visitAll visit (c :: rest) s =
      (visit c.1 c.2 s).bind fun first => (visitAll visit rest first.2).bind fun others =>
        some ((c.1, first.1) :: others.1, others.2) := by
  rw [visitAll]
  cases visit c.1 c.2 s with
  | none => rfl
  | some first => cases h : visitAll visit rest first.2 <;> simp [h]

theorem visitAll_mono {visit visit' : Slot → Json → σ → Option (α × σ)}
    (h : ∀ c ∈ children, ∀ s r, visit c.1 c.2 s = some r → visit' c.1 c.2 s = some r)
    {outs : List (Slot × α) × σ} (hr : visitAll visit children s = some outs) :
    visitAll visit' children s = some outs := by
  induction children generalizing s outs with
  | nil => exact hr
  | cons c rest ih =>
    obtain ⟨slot, child⟩ := c
    obtain ⟨hc, hrest⟩ := List.forall_mem_cons.mp h
    unfold visitAll at hr ⊢
    cases h₁ : visit slot child s with
    | none => simp [h₁] at hr
    | some first =>
      cases h₂ : visitAll visit rest first.2 with
      | none => simp [h₁, h₂] at hr
      | some others =>
        simp only [h₁, h₂] at hr
        simp only [hc s first h₁, ih hrest h₂, hr]

theorem visitAll_eq_some {visit : Slot → Json → σ → Option (α × σ)}
    (visit' : Slot → Json → σ → α × σ)
    (h : ∀ c ∈ children, ∀ s, visit c.1 c.2 s = some (visit' c.1 c.2 s)) (s : σ) :
    visitAll visit children s = some (visitEach visit' children s) := by
  induction children generalizing s with
  | nil => rfl
  | cons c rest ih =>
    obtain ⟨slot, child⟩ := c
    obtain ⟨hc, hrest⟩ := List.forall_mem_cons.mp h
    simp only [visitAll, visitEach, hc s, ih hrest]

/-- Visits that leave the state as it was do not depend on each other. -/
theorem visitEach_eq_map {visit : Slot → Json → σ → α × σ} {f : Slot → Json → α}
    (h : ∀ c ∈ children, ∀ s, visit c.1 c.2 s = (f c.1 c.2, s)) (s : σ) :
    visitEach visit children s = (children.map fun c => (c.1, f c.1 c.2), s) := by
  induction children with
  | nil => rfl
  | cons c rest ih =>
    obtain ⟨hc, hrest⟩ := List.forall_mem_cons.mp h
    simp only [visitEach, hc s, ih hrest, List.map_cons]

theorem visitEach_fst {visit : Slot → Json → σ → α × σ} {f : Slot → Json → α}
    (h : ∀ c ∈ children, ∀ s, (visit c.1 c.2 s).1 = f c.1 c.2) (s : σ) :
    (visitEach visit children s).1 = children.map fun c => (c.1, f c.1 c.2) := by
  induction children generalizing s with
  | nil => rfl
  | cons c rest ih =>
    obtain ⟨hc, hrest⟩ := List.forall_mem_cons.mp h
    simp only [visitEach, hc s, ih hrest, List.map_cons]

theorem visitEach_unit (visit : Slot → Json → Unit → α × Unit) (children : List (Slot × Json))
    (u : Unit) :
    visitEach visit children u = (children.map fun c => (c.1, (visit c.1 c.2 ()).1), ()) :=
  visitEach_eq_map (f := fun slot child => (visit slot child ()).1) (fun _ _ _ => rfl) u

theorem runWithin_of_opened {ms : Members} (h : (v.enter ctx node s).1.opened? = some ms) :
    v.runWithin (levels + 1) ctx node s =
      (visitAll (fun slot child => v.runWithin levels ⟨ctx.path ++ [slot], some ms.emptied⟩ child)
        ms.children (v.enter ctx node s).2).map
        fun outs => v.leave ctx (.obj ms.emptied) outs.1 outs.2 := by
  unfold runWithin
  rcases he : v.enter ctx node s with ⟨decision, s'⟩
  rw [he] at h
  cases decision with
  | skip value => cases h
  | descend value =>
    cases value with
    | obj members =>
      cases h
      dsimp only
      split <;> simp_all
    | _ => cases h

theorem runWithin_of_closed (h : (v.enter ctx node s).1.opened? = none) :
    v.runWithin (levels + 1) ctx node s =
      some (v.leave ctx (v.enter ctx node s).1.node [] (v.enter ctx node s).2) := by
  unfold runWithin
  rcases he : v.enter ctx node s with ⟨decision, s'⟩
  rw [he] at h
  cases decision with
  | skip value => rfl
  | descend value =>
    cases value with
    | obj members => cases h
    | _ => rfl

theorem runWithin_succ (h : v.runWithin levels ctx node s = some r) :
    v.runWithin (levels + 1) ctx node s = some r := by
  induction levels generalizing ctx node s r with
  | zero => cases h
  | succ levels ih =>
    cases ho : (v.enter ctx node s).1.opened? with
    | none =>
      rw [runWithin_of_closed ho] at h ⊢
      exact h
    | some ms =>
      rw [runWithin_of_opened ho] at h ⊢
      obtain ⟨outs, hall, rfl⟩ := Option.map_eq_some_iff.mp h
      rw [visitAll_mono (fun c _ s r hc => ih hc) hall, Option.map_some]

theorem runWithin_mono {levels' : ℕ} (hle : levels ≤ levels')
    (h : v.runWithin levels ctx node s = some r) : v.runWithin levels' ctx node s = some r := by
  induction hle with
  | refl => exact h
  | step _ ih => exact runWithin_succ ih

def visit (v : Visitor σ α) (hv : v.Shallow) (ctx : Context) (node : Json) (s : σ) : α × σ :=
  (v.runWithin (node.depth + 1) ctx node s).get (runWithin_isSome hv (Nat.lt_succ_self _) _ _)

theorem run_eq_visit (hv : v.Shallow) (schema : Json) (s : σ) :
    v.run hv schema s = v.visit hv .root schema s := rfl

theorem runWithin_eq_visit (hv : v.Shallow) (h : node.depth < levels) (ctx : Context) (s : σ) :
    v.runWithin levels ctx node s = some (v.visit hv ctx node s) :=
  runWithin_mono h (Option.some_get _).symm

theorem visit_of_opened (hv : v.Shallow) {ms : Members}
    (h : (v.enter ctx node s).1.opened? = some ms) :
    v.visit hv ctx node s =
      let outs := visitEach
        (fun slot child => v.visit hv ⟨ctx.path ++ [slot], some ms.emptied⟩ child) ms.children
        (v.enter ctx node s).2
      v.leave ctx (.obj ms.emptied) outs.1 outs.2 := by
  have hd : (Json.obj ms).depth ≤ node.depth := by
    have hn := hv ctx node s
    rwa [Decision.node_of_opened h] at hn
  have hchildren : ∀ c ∈ ms.children, ∀ s, v.runWithin node.depth
      ⟨ctx.path ++ [c.1], some ms.emptied⟩ c.2 s =
      some (v.visit hv ⟨ctx.path ++ [c.1], some ms.emptied⟩ c.2 s) := by
    intro c hc s
    have hlt := Members.depth_lt_of_mem_children hc
    exact runWithin_eq_visit hv (by omega) _ _
  have hrun : v.runWithin (node.depth + 1) ctx node s = some (v.visit hv ctx node s) :=
    runWithin_eq_visit hv (Nat.lt_succ_self _) _ _
  rw [runWithin_of_opened h, visitAll_eq_some (fun slot child =>
    v.visit hv ⟨ctx.path ++ [slot], some ms.emptied⟩ child) hchildren] at hrun
  exact (Option.some.inj hrun).symm

theorem visit_of_closed (hv : v.Shallow) (h : (v.enter ctx node s).1.opened? = none) :
    v.visit hv ctx node s =
      v.leave ctx (v.enter ctx node s).1.node [] (v.enter ctx node s).2 := by
  have hrun : v.runWithin (node.depth + 1) ctx node s = some (v.visit hv ctx node s) :=
    runWithin_eq_visit hv (Nat.lt_succ_self _) _ _
  rw [runWithin_of_closed h] at hrun
  exact (Option.some.inj hrun).symm

/-- The state in which a node is left: that of its enter, or that in which the visits of its
children end. -/
def stateOnLeave (v : Visitor σ α) (hv : v.Shallow) (ctx : Context) (node : Json) (s : σ) : σ :=
  let entered := v.enter ctx node s
  match entered.1.opened? with
  | some ms =>
    (visitEach (fun slot child => v.visit hv ⟨ctx.path ++ [slot], some ms.emptied⟩ child)
      ms.children entered.2).2
  | none => entered.2

theorem stateOnLeave_of_opened (hv : v.Shallow) {ms : Members}
    (h : (v.enter ctx node s).1.opened? = some ms) :
    v.stateOnLeave hv ctx node s =
      (visitEach (fun slot child => v.visit hv ⟨ctx.path ++ [slot], some ms.emptied⟩ child)
        ms.children (v.enter ctx node s).2).2 := by
  simp only [stateOnLeave, h]

theorem stateOnLeave_of_closed (hv : v.Shallow) (h : (v.enter ctx node s).1.opened? = none) :
    v.stateOnLeave hv ctx node s = (v.enter ctx node s).2 := by
  simp only [stateOnLeave, h]

theorem exists_visit_eq_leave (hv : v.Shallow) (ctx : Context) (node : Json) (s : σ) :
    ∃ left outs, v.visit hv ctx node s = v.leave ctx left outs (v.stateOnLeave hv ctx node s) := by
  cases h : (v.enter ctx node s).1.opened? with
  | some ms =>
    rw [stateOnLeave_of_opened hv h]
    exact ⟨_, _, visit_of_opened hv h⟩
  | none =>
    rw [stateOnLeave_of_closed hv h]
    exact ⟨_, _, visit_of_closed hv h⟩

end Visitor

end SchemaRoutes.Traversal
