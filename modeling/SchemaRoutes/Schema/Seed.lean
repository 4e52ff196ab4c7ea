import SchemaRoutes.Schema.Traversal

/-! # Seeds

The value that a new resource starts from: defaults where the schema gives them, `null` elsewhere.
Lists, read-only nodes and linked sub-resources have no key in the seed around them.
-/

namespace SchemaRoutes

/-- What a node contributes to the seed of its parent. -/
structure Seed where
  value : Json
  /-- Whether the parent gets a key for it. -/
  keyed : Bool

namespace Seed

/-- How a node takes part in the seed around it. -/
inductive Role where
  /-- Addressed by link, or never written by clients. -/
  | linked
  | list
  | record
  | scalar
  deriving DecidableEq, Repr

def role (isRoot : Bool) (s : Schema) : Role :=
  let holdsResources := s.isList && (s.get? "items").any Schema.isIdentified
  let isNestedResource := !isRoot && s.holdsMembers && s.isIdentified
  if holdsResources || isNestedResource || s.isReadOnly then .linked
  else if s.isList then .list
  else if s.isRecord then .record
  else .scalar

/-- The empty value of a node's own kind. -/
def emptyValue (s : Schema) : Json :=
  if s.isList then .arr []
  else if s.isRecord then .obj []
  else .null

/-- Lays one property over the seed so far. A value of `null` gives way to the one already there. -/
def overlay (soFar : Members) (child : Slot × Seed) : Members :=
  match child with
  | (.property name, seed) =>
    if !seed.keyed then soFar
    else if !seed.value.isNull then soFar.insert name seed.value
    else soFar.insert name ((soFar.get? name).getD .null)
  | _ => soFar

def ofRole (role : Role) (s : Schema) (children : List (Slot × Seed)) : Seed :=
  let default? := s.get? "default"
  match role with
  | .linked => ⟨emptyValue s, false⟩
  | .list => ⟨default?.getD (.arr []), false⟩
  | .record => ⟨.obj (children.foldl overlay (default?.getD .null).members), true⟩
  | .scalar => ⟨default?.getD .null, true⟩

/-- Decides the role on the way in and keeps it, innermost first, for the way out. -/
def visitor : Traversal.Visitor (List Role) Seed where
  enter ctx s roles :=
    let role := role ctx.isRoot s
    (if role = .record then .descend s else .skip s, role :: roles)
  leave _ s children roles := (ofRole (roles.headD .scalar) s children, roles.tail)

theorem visitor_shallow : visitor.Shallow := by
  intro ctx s roles
  simp only [visitor]
  split <;> exact Nat.le_refl _

end Seed

def Schema.seed (s : Schema) : Json := (Seed.visitor.run Seed.visitor_shallow s []).1.value

end SchemaRoutes
