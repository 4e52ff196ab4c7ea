/-! # Binary floating point

Finite numbers with a 53-bit significand, rounded to nearest with ties to even.
All arithmetic is exact on natural numbers and rounds once at the end.
-/

namespace SchemaRoutes

/-- A finite number `±significand · 2 ^ exponent`. -/
structure Double where
  negative : Bool
  significand : Nat
  exponent : Int
  deriving DecidableEq, Repr

namespace Double

def leastExponent : Int := -1074

def greatestExponent : Int := 971

def zero : Double := ⟨false, 0, leastExponent⟩

/-- The one representation of each number: a full significand unless the exponent is least. -/
def Canonical (d : Double) : Prop :=
  d.significand < Nat.pow 2 53 ∧ leastExponent ≤ d.exponent ∧ d.exponent ≤ greatestExponent ∧
    (Nat.pow 2 52 ≤ d.significand ∨ d.exponent = leastExponent)

instance (d : Double) : Decidable d.Canonical := by
  unfold Canonical; infer_instance

def isZero (d : Double) : Bool := d.significand == 0

/-- Numeric equality: the two zeros are equal. -/
def same (a b : Double) : Bool := a == b || (a.isZero && b.isZero)

def roundQuotient (num den : Nat) : Nat :=
  let q := num / den
  let twice := 2 * (num % den)
  if twice < den then q
  else if den < twice then q + 1
  else q + q % 2

/-- The nearest multiple of `2 ^ exponent`. -/
def roundAt (num den : Nat) (exponent : Int) : Nat :=
  roundQuotient (num * Nat.pow 2 (-exponent).toNat) (den * Nat.pow 2 exponent.toNat)

/-- The exponent that gives `num / den` a full significand, if it is in range. -/
def exponentFor (num den : Nat) : Int :=
  let estimate : Int := (Nat.log2 num : Int) - Nat.log2 den - 52
  let full := num * Nat.pow 2 (-estimate).toNat / (den * Nat.pow 2 estimate.toNat)
  max leastExponent (if full < Nat.pow 2 52 then estimate - 1 else estimate)

/-- The number nearest to `num / den`, or `none` beyond the range. -/
def nearest (num den : Nat) : Option Double :=
  if num = 0 then some zero
  else
    let exponent := exponentFor num den
    let significand := roundAt num den exponent
    let (significand, exponent) :=
      if significand = Nat.pow 2 53 then (Nat.pow 2 52, exponent + 1) else (significand, exponent)
    if greatestExponent < exponent then none else some ⟨false, significand, exponent⟩

def withSign (negative : Bool) (d : Double) : Double := { d with negative }

def multiply (a b : Double) : Option Double :=
  let exponent := a.exponent + b.exponent
  let num := a.significand * b.significand * Nat.pow 2 exponent.toNat
  (nearest num (Nat.pow 2 (-exponent).toNat)).map (withSign (a.negative != b.negative))

/-- The quotient by a nonzero number. -/
def divide (a b : Double) : Option Double :=
  let exponent := a.exponent - b.exponent
  let num := a.significand * Nat.pow 2 exponent.toNat
  let den := b.significand * Nat.pow 2 (-exponent).toNat
  (nearest num den).map (withSign (a.negative != b.negative))

end Double

end SchemaRoutes
