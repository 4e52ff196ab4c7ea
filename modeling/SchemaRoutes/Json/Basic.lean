import SchemaRoutes.Json.Number

/-! # Documents

A document tree whose objects keep the order of their members. Setting a member keeps the place
of an existing key and appends a new one; erasing closes the gap.
-/

namespace SchemaRoutes

inductive Json where
  | null
  | bool (value : Bool)
  | num (value : Number)
  | str (value : String)
  | arr (items : List Json)
  | obj (members : List (String × Json))

abbrev Members := List (String × Json)

namespace Members

def get? (ms : Members) (key : String) : Option Json := ms.lookup key

def has (ms : Members) (key : String) : Bool := ms.any fun m => m.1 == key

def keys (ms : Members) : List String := ms.map Prod.fst

/-- Replaces the value in place, or appends a new member. -/
def insert : Members → String → Json → Members
  | [], key, value => [(key, value)]
  | (k, v) :: ms, key, value =>
    if k == key then (k, value) :: ms else (k, v) :: insert ms key value

def erase : Members → String → Members
  | [], _ => []
  | (k, v) :: ms, key => if k == key then ms else (k, v) :: erase ms key

/-- Replaces the value of an existing member only. -/
def replace : Members → String → (Json → Json) → Members
  | [], _, _ => []
  | (k, v) :: ms, key, f => if k == key then (k, f v) :: ms else (k, v) :: replace ms key f

/-- Members of the second list win and new ones follow in order. -/
def extend (ms others : Members) : Members := others.foldl (fun ms m => ms.insert m.1 m.2) ms

def ofList (ms : Members) : Members := extend [] ms

end Members

namespace Json

mutual

/-- How deep arrays and objects nest. -/
def depth : Json → Nat
  | arr items => depthItems items + 1
  | obj members => depthMembers members + 1
  | _ => 0
termination_by structural j => j

def depthItems : List Json → Nat
  | [] => 0
  | x :: xs => max (depth x) (depthItems xs)
termination_by structural xs => xs

def depthMembers : List (String × Json) → Nat
  | [] => 0
  | (_, x) :: xs => max (depth x) (depthMembers xs)
termination_by structural xs => xs

end

mutual

def beq : Json → Json → Bool
  | null, null => true
  | bool a, bool b => a == b
  | num a, num b => decide (a = b)
  | str a, str b => a == b
  | arr a, arr b => beqItems a b
  | obj a, obj b => beqMembers a b
  | _, _ => false
termination_by structural a => a

def beqItems : List Json → List Json → Bool
  | [], [] => true
  | x :: xs, y :: ys => beq x y && beqItems xs ys
  | _, _ => false
termination_by structural xs => xs

def beqMembers : List (String × Json) → List (String × Json) → Bool
  | [], [] => true
  | (k, x) :: xs, (l, y) :: ys => k == l && beq x y && beqMembers xs ys
  | _, _ => false
termination_by structural xs => xs

end

mutual

theorem beq_iff_eq : ∀ a b : Json, beq a b = true ↔ a = b
  | null, b | bool _, b | num _, b | str _, b => by cases b <;> simp [beq]
  | arr xs, b => by cases b <;> simp [beq, beqItems_iff_eq xs]
  | obj xs, b => by cases b <;> simp [beq, beqMembers_iff_eq xs]

theorem beqItems_iff_eq : ∀ xs ys : List Json, beqItems xs ys = true ↔ xs = ys
  | [], ys => by cases ys <;> simp [beqItems]
  | x :: xs, ys => by cases ys <;> simp [beqItems, beq_iff_eq x, beqItems_iff_eq xs]

theorem beqMembers_iff_eq :
    ∀ xs ys : List (String × Json), beqMembers xs ys = true ↔ xs = ys
  | [], ys => by cases ys <;> simp [beqMembers]
  | (k, x) :: xs, ys => by
    cases ys <;> simp [beqMembers, beq_iff_eq x, beqMembers_iff_eq xs, Prod.ext_iff, and_assoc]

end

instance : DecidableEq Json := fun a b => decidable_of_iff _ (beq_iff_eq a b)

mutual

/-- Equality of values: the order of members does not count. -/
def same : Json → Json → Bool
  | null, null => true
  | bool a, bool b => a == b
  | num a, num b => a.same b
  | str a, str b => a == b
  | arr a, arr b => sameItems a b
  | obj a, obj b => a.length == b.length && sameMembers a b
  | _, _ => false
termination_by structural a => a

def sameItems : List Json → List Json → Bool
  | [], [] => true
  | x :: xs, y :: ys => same x y && sameItems xs ys
  | _, _ => false
termination_by structural xs => xs

def sameMembers : List (String × Json) → List (String × Json) → Bool
  | [], _ => true
  | (k, x) :: xs, ys =>
    (match ys.lookup k with
    | some y => same x y
    | none => false) && sameMembers xs ys
termination_by structural xs => xs

end

def members : Json → Members
  | obj ms => ms
  | _ => []

/-- The value of a member; a value that is no object has none. -/
def get? (j : Json) (key : String) : Option Json := j.members.get? key

def str? : Json → Option String
  | str s => some s
  | _ => none

def bool? : Json → Option Bool
  | bool b => some b
  | _ => none

def items? : Json → Option (List Json)
  | arr xs => some xs
  | _ => none

def isNull : Json → Bool
  | null => true
  | _ => false

def isObject : Json → Bool
  | obj _ => true
  | _ => false

def nat (n : Nat) : Json := num (.int n)

mutual

/-- Every number is in range and no object has a key twice. -/
def WellFormed : Json → Prop
  | num n => n.WellFormed
  | arr items => WellFormedItems items
  | obj members => (members.map Prod.fst).Nodup ∧ WellFormedMembers members
  | _ => True
termination_by structural j => j

def WellFormedItems : List Json → Prop
  | [] => True
  | x :: xs => WellFormed x ∧ WellFormedItems xs
termination_by structural xs => xs

def WellFormedMembers : List (String × Json) → Prop
  | [] => True
  | (_, x) :: xs => WellFormed x ∧ WellFormedMembers xs
termination_by structural xs => xs

end

end Json

end SchemaRoutes
