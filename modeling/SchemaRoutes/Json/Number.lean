import SchemaRoutes.Json.Double

/-! # Numbers

Integers of 64 bits stay exact; every other literal is a `Double`. A literal is read by keeping
as many leading digits as fit 64 bits and scaling them by a power of ten, rounding after each
step.
-/

namespace SchemaRoutes

inductive Number where
  | int (value : Int)
  | double (value : Double)
  deriving DecidableEq, Repr

namespace Number

def WellFormed : Number → Prop
  | int n => -Nat.pow 2 63 ≤ n ∧ n < Nat.pow 2 64
  | double d => d.Canonical

/-- Numeric equality within one kind: an integer never equals a double. -/
def same : Number → Number → Bool
  | int a, int b => a == b
  | double a, double b => a.same b
  | _, _ => false

/-- The parts of a literal, each run of digits from the left. -/
structure Literal where
  negative : Bool
  whole : List Nat
  fraction : List Nat
  hasFraction : Bool
  /-- Sign (`true` is negative) and digits. -/
  exponent : Option (Bool × List Nat)
  deriving DecidableEq, Repr

def digit? (c : Char) : Option Nat :=
  if c.isDigit then some (c.toNat - '0'.toNat) else none

def digits (cs : List Char) : List Nat := (cs.takeWhile Char.isDigit).filterMap digit?

def afterDigits (cs : List Char) : List Char := cs.dropWhile Char.isDigit

namespace Literal

/-- One digit, or several that start with none of value zero. -/
def validWhole : List Nat → Bool
  | [] => false
  | [_] => true
  | d :: _ => d != 0

def exponentOf? : List Char → Option (Option (Bool × List Nat))
  | [] => some none
  | e :: rest =>
    if e = 'e' ∨ e = 'E' then
      let (negative, rest) :=
        match rest with
        | '-' :: rest => (true, rest)
        | '+' :: rest => (false, rest)
        | rest => (false, rest)
      if (digits rest).isEmpty || !(afterDigits rest).isEmpty then none
      else some (some (negative, digits rest))
    else none

def unsigned? (negative : Bool) (cs : List Char) : Option Literal :=
  if !validWhole (digits cs) then none
  else
    match afterDigits cs with
    | '.' :: rest =>
      if (digits rest).isEmpty then none
      else (exponentOf? (afterDigits rest)).map (⟨negative, digits cs, digits rest, true, ·⟩)
    | rest => (exponentOf? rest).map (⟨negative, digits cs, [], false, ·⟩)

def ofChars? : List Char → Option Literal
  | '-' :: cs => unsigned? true cs
  | cs => unsigned? false cs

end Literal

def significandLimit : Nat := Nat.pow 2 64

def exponentLimit : Nat := Nat.pow 2 31

def ofDigits (ds : List Nat) : Nat := ds.foldl (fun n d => n * 10 + d) 0

/-- Extends a significand by leading digits while it fits; the second part holds those left. -/
def absorb (significand : Nat) : List Nat → Nat × List Nat
  | [] => (significand, [])
  | d :: ds =>
    if significand * 10 + d < significandLimit then absorb (significand * 10 + d) ds
    else (significand, d :: ds)

def powerOfTen (n : Nat) : Double := (Double.nearest (Nat.pow 10 n) 1).getD Double.zero

/-- Divides by `10 ^ 308` as often as told, stopping at zero. -/
def divideRepeatedly (d : Double) : Nat → Double
  | 0 => d
  | n + 1 =>
    if d.isZero then d
    else divideRepeatedly ((d.divide (powerOfTen 308)).getD d) n

/-- `significand · 10 ^ exponent`, or `none` beyond the range. -/
def scale? (significand : Nat) (exponent : Int) : Option Double :=
  let start := (Double.nearest significand 1).getD Double.zero
  if 0 ≤ exponent then
    if exponent ≤ 308 then start.multiply (powerOfTen exponent.toNat)
    else if start.isZero then some start
    else none
  else
    let rounds := (exponent.natAbs - 1) / 308
    (divideRepeatedly start rounds).divide (powerOfTen (exponent.natAbs - 308 * rounds))

namespace Literal

def isInteger (l : Literal) : Bool := !l.hasFraction && l.exponent.isNone

def double? (l : Literal) : Option Double :=
  let (whole, beyond) := absorb 0 l.whole
  let (significand, dropped) := absorb whole l.fraction
  let point : Int := (beyond.length : Int) - (l.fraction.length - dropped.length : Nat)
  match l.exponent with
  | none => scale? significand point
  | some (below, ds) =>
    let shift := ofDigits ds
    if exponentLimit ≤ shift then
      if significand = 0 || below then some Double.zero else none
    else if below then scale? significand (point - shift)
    else scale? significand (point + shift)

/-- The number a literal denotes; `-0` and integers beyond 64 bits are doubles. -/
def number? (l : Literal) : Option Number :=
  let exact := (absorb 0 l.whole).1
  if l.isInteger && (absorb 0 l.whole).2.isEmpty then
    if !l.negative then some (.int exact)
    else if 0 < exact && exact ≤ Nat.pow 2 63 then some (.int (-exact))
    else (Double.nearest exact 1).map fun d => .double (d.withSign true)
  else l.double?.map fun d => .double (d.withSign l.negative)

end Literal

def ofChars? (cs : List Char) : Option Number := (Literal.ofChars? cs).bind Literal.number?

end Number

end SchemaRoutes
