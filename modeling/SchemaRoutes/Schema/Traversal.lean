import SchemaRoutes.Schema.Slot

/-! # Traversals

A visitor enters each node before its sub-schemas and leaves it after them. On the way in it may
change the node, and it decides whether to go on below. On the way out it gets the node with
emptied slots and what each visited sub-schema gave.
-/

namespace SchemaRoutes

/-- Where a visited node lies: the slots from the root, and the parent with emptied slots. -/
structure Traversal.Context where
  path : List Slot
  parent : Option Members

namespace Traversal

def Context.root : Context := ⟨[], none⟩

def Context.isRoot (ctx : Context) : Bool := ctx.parent.isNone

def Context.slot? (ctx : Context) : Option Slot := ctx.path.getLast?

inductive Decision where
  | descend (node : Json)
  | skip (node : Json)

def Decision.node : Decision → Json
  | descend node | skip node => node

/-- A visitor with a state `σ` that gives an `α` for each node. -/
structure Visitor (σ α : Type) where
  enter : Context → Json → σ → Decision × σ
  leave : Context → Json → List (Slot × α) → σ → α × σ

namespace Visitor

variable {σ α : Type}

/-- Visits children in order, as long as each visit ends. -/
def visitAll (visit : Slot → Json → σ → Option (α × σ)) :
    List (Slot × Json) → σ → Option (List (Slot × α) × σ)
  | [], s => some ([], s)
  | (slot, child) :: rest, s =>
    match visit slot child s with
    | none => none
    | some (out, s) =>
      match visitAll visit rest s with
      | none => none
      | some (outs, s) => some ((slot, out) :: outs, s)

/-- Visits at most `levels` levels of nodes; `none` if there are more. -/
def runWithin (v : Visitor σ α) : Nat → Context → Json → σ → Option (α × σ)
  | 0, _, _, _ => none
  | levels + 1, ctx, node, s =>
    match v.enter ctx node s with
    | (.descend (.obj ms), s) =>
      let below := Members.emptied ms
      match visitAll
        (fun slot child => runWithin v levels ⟨ctx.path ++ [slot], some below⟩ child)
        (Members.children ms) s with
      | none => none
      | some (outs, s) => some (v.leave ctx (.obj below) outs s)
    | (.descend node, s) | (.skip node, s) => some (v.leave ctx node [] s)

/-- Entering never makes a node deeper. -/
def Shallow (v : Visitor σ α) : Prop :=
  ∀ ctx node s, (v.enter ctx node s).1.node.depth ≤ node.depth

theorem visitAll_isSome (visit : Slot → Json → σ → Option (α × σ))
    (children : List (Slot × Json))
    (h : ∀ c ∈ children, ∀ s, (visit c.1 c.2 s).isSome) (s : σ) :
    (visitAll visit children s).isSome := by
  induction children generalizing s with
  | nil => rfl
  | cons c rest ih =>
    obtain ⟨slot, child⟩ := c
    obtain ⟨⟨out, s'⟩, h₁⟩ := Option.isSome_iff_exists.mp (h _ (.head _) s)
    obtain ⟨⟨outs, s''⟩, h₂⟩ :=
      Option.isSome_iff_exists.mp (ih (fun c hc => h c (.tail _ hc)) s')
    simp only at h₁
    simp [visitAll, h₁, h₂]

theorem runWithin_isSome {v : Visitor σ α} (hv : v.Shallow) {levels : Nat} {node : Json}
    (h : node.depth < levels) (ctx : Context) (s : σ) :
    (v.runWithin levels ctx node s).isSome := by
  induction levels generalizing node ctx s with
  | zero => omega
  | succ levels ih =>
    have hd := hv ctx node s
    unfold runWithin
    split
    · next ms s' he =>
      rw [he] at hd
      have := visitAll_isSome
        (fun slot child =>
          runWithin v levels ⟨ctx.path ++ [slot], some (Members.emptied ms)⟩ child)
        (Members.children ms)
        (fun c hc s => ih (by
          have := Members.depth_lt_of_mem_children hc
          simp only [Decision.node] at hd
          omega) _ s) s'
      obtain ⟨⟨outs, s''⟩, hs⟩ := Option.isSome_iff_exists.mp this
      simp only [hs, Option.isSome_some]
    · rfl
    · rfl

/-- Visits a whole schema. -/
def run (v : Visitor σ α) (hv : v.Shallow) (schema : Json) (s : σ) : α × σ :=
  (v.runWithin (schema.depth + 1) .root schema s).get
    (runWithin_isSome hv (Nat.lt_succ_self _) _ _)

end Visitor

end Traversal

end SchemaRoutes
