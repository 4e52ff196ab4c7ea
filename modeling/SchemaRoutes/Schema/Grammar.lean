import SchemaRoutes.Schema.Draft

/-! # Grammars of schemas

A grammar says for each keyword of a node what values it may hold, and where in them schemas lie.
Nothing is looked at below a value that holds no schema.
-/

namespace SchemaRoutes

mutual

/-- What a value may be, by its own shape. -/
inductive Rule where
  | mk (object : ObjectRule) (array : ArrayRule) (others : Json → Bool)

inductive ObjectRule where
  | test (accepts : Members → Bool)
  | schema
  /-- A map from names to values that follow a rule. -/
  | byName (each : Rule)

inductive ArrayRule where
  | test (accepts : List Json → Bool)
  /-- At least so many items, all of which follow a rule. -/
  | list (least : Nat) (each : Rule)

end

namespace Rule

def test (accepts : Json → Bool) : Rule :=
  ⟨.test fun ms => accepts (.obj ms), .test fun xs => accepts (.arr xs), accepts⟩

def anything : Rule := test fun _ => true

def schema (others : Json → Bool) : Rule := ⟨.schema, .test fun _ => false, others⟩

def listOf (least : Nat) (each : Rule) : Rule :=
  ⟨.test fun _ => false, .list least each, fun _ => false⟩

def byName (each : Rule) : Rule := ⟨.byName each, .test fun _ => false, fun _ => false⟩

def schemaOrList (least : Nat) (each : Rule) (others : Json → Bool) : Rule :=
  ⟨.schema, .list least each, others⟩

/-- The rule for objects and arrays alone; whatever is of another shape is let through. -/
def lenient : Rule → Rule
  | ⟨object, array, _⟩ =>
    ⟨match object with | .test _ => .test fun _ => true | other => other,
      match array with | .test _ => .test fun _ => true | other => other, fun _ => true⟩

end Rule

structure Grammar where
  /-- The scope of a node inside another, or `none` if the node may not stand there. -/
  enter? : Scope → Members → Option Scope
  rule : Draft → String → Rule

namespace Grammar

mutual

def follows (g : Grammar) (s : Scope) (rule : Rule) : Json → Bool
  | .obj ms =>
    match rule with
    | ⟨.test accepts, _, _⟩ => accepts ms
    | ⟨.schema, _, _⟩ =>
      match g.enter? s ms with
      | some inner => eachKeyword g inner ms
      | none => false
    | ⟨.byName each, _, _⟩ => eachMember g s each ms
  | .arr xs =>
    match rule with
    | ⟨_, .test accepts, _⟩ => accepts xs
    | ⟨_, .list least each, _⟩ => decide (least ≤ xs.length) && eachItem g s each xs
  | j =>
    match rule with
    | ⟨_, _, others⟩ => others j
termination_by structural j => j

def eachKeyword (g : Grammar) (s : Scope) : Members → Bool
  | [] => true
  | (keyword, x) :: ms => follows g s (g.rule s.draft keyword) x && eachKeyword g s ms
termination_by structural ms => ms

def eachMember (g : Grammar) (s : Scope) (each : Rule) : Members → Bool
  | [] => true
  | (_, x) :: ms => follows g s each x && eachMember g s each ms
termination_by structural ms => ms

def eachItem (g : Grammar) (s : Scope) (each : Rule) : List Json → Bool
  | [] => true
  | x :: xs => follows g s each x && eachItem g s each xs
termination_by structural xs => xs

end

end Grammar

end SchemaRoutes
