import SchemaRoutes.Json.Double

/-! # Decimal text of a double

The fewest digits that round back to the number, and of those the nearest; a tie goes to the even
digit. Small and large magnitudes are written with an exponent.
-/

namespace SchemaRoutes

/-- The number `d₁.d₂d₃… · 10 ^ exponent`. -/
structure Decimal where
  digits : List Char
  exponent : Int
  deriving DecidableEq, Repr

namespace Double

/-- The numbers that round to a double, in quarters of its last binary place. -/
structure RoundingRange where
  low : Nat
  centre : Nat
  high : Nat
  closed : Bool
  deriving DecidableEq, Repr

def roundingRange (d : Double) : RoundingRange :=
  let halfGap := if d.significand = Nat.pow 2 52 ∧ leastExponent < d.exponent then 1 else 2
  ⟨4 * d.significand - halfGap, 4 * d.significand, 4 * d.significand + 2,
    d.significand % 2 == 0⟩

def RoundingRange.holds (r : RoundingRange) (num den : Nat) : Bool :=
  if r.closed then decide (r.low * den ≤ num) && decide (num ≤ r.high * den)
  else decide (r.low * den < num) && decide (num < r.high * den)

/-- Numerator and denominator of one quarter of the last binary place over `10 ^ grid`. -/
def quarterOver (d : Double) (grid : Int) : Nat × Nat :=
  (Nat.pow 2 (d.exponent - 2).toNat * Nat.pow 10 (-grid).toNat,
    Nat.pow 2 (2 - d.exponent).toNat * Nat.pow 10 grid.toNat)

/-- The multiple of `10 ^ grid` that rounds back, the nearer of two. -/
def onGrid? (d : Double) (grid : Int) : Option Nat :=
  let range := d.roundingRange
  let (num, den) := d.quarterOver grid
  let below := range.centre * num / den
  let belowHolds := range.holds (below * den) num
  let aboveHolds := range.holds ((below + 1) * den) num
  if belowHolds && aboveHolds then
    let twice := 2 * (range.centre * num % den)
    if twice < den then some below
    else if den < twice then some (below + 1)
    else some (below + below % 2)
  else if belowHolds then some below
  else if aboveHolds then some (below + 1)
  else none

/-- The place of the leading decimal digit of a nonzero number. -/
def leadingPlace (d : Double) : Int :=
  let scaled :=
    d.significand * Nat.pow 2 d.exponent.toNat * Nat.pow 10 350 / Nat.pow 2 (-d.exponent).toNat
  ((Nat.toDigits 10 scaled).length : Int) - 351

/-- Tries more and more digits, `fuel` times. -/
def searchDigits (d : Double) (place : Int) (count : Nat) : Nat → Nat × Int
  | 0 => (d.significand, 0)
  | fuel + 1 =>
    let grid := place + 1 - count
    match d.onGrid? grid with
    | some n => (n, grid)
    | none => searchDigits d place (count + 1) fuel

def dropTrailingZeros (cs : List Char) : List Char :=
  (cs.reverse.dropWhile (· == '0')).reverse

/-- Seventeen digits always suffice. -/
def shortest (d : Double) : Decimal :=
  let (n, grid) := d.searchDigits d.leadingPlace 1 17
  let digits := Nat.toDigits 10 n
  ⟨dropTrailingZeros digits, grid + digits.length - 1⟩

end Double

namespace Decimal

/-- Positional from `0.00001` up to sixteen whole digits, always with a fraction. -/
def text (d : Decimal) : List Char :=
  let e := d.exponent
  if e < -5 ∨ 15 < e then
    let mantissa :=
      match d.digits with
      | [] => ['0']
      | [c] => [c]
      | c :: cs => c :: '.' :: cs
    mantissa ++ 'e' :: (if e < 0 then '-' else '+') :: Nat.toDigits 10 e.natAbs
  else if e < 0 then '0' :: '.' :: (List.replicate (e.natAbs - 1) '0' ++ d.digits)
  else
    let whole := d.digits.take (e.toNat + 1)
    let fraction := d.digits.drop (e.toNat + 1)
    whole ++ List.replicate (e.toNat + 1 - whole.length) '0' ++
      '.' :: (if fraction.isEmpty then ['0'] else fraction)

end Decimal

def Double.text (d : Double) : List Char :=
  let magnitude := if d.isZero then ['0', '.', '0'] else d.shortest.text
  if d.negative then '-' :: magnitude else magnitude

end SchemaRoutes
