/-! # Decimal numerals

Runs of ASCII digits with an optional sign, read within a range, and their text.
-/

namespace SchemaRoutes.Text

def decimal (n : Nat) : String := String.ofList (Nat.toDigits 10 n)

def digitsValue? (cs : List Char) : Option Nat :=
  if cs.isEmpty || !cs.all Char.isDigit then none
  else some (cs.foldl (fun n c => n * 10 + (c.toNat - '0'.toNat)) 0)

/-- A number below the limit; a plus sign may stand in front. -/
def natural? (limit : Nat) (text : String) : Option Nat :=
  let digits :=
    match text.toList with
    | '+' :: cs => cs
    | cs => cs
  (digitsValue? digits).bind fun n => if n < limit then some n else none

def integerMagnitude : Nat := Nat.pow 2 63

/-- A 64-bit signed integer; a sign may stand in front. -/
def integer? (text : String) : Option Int :=
  match text.toList with
  | '-' :: cs =>
    (digitsValue? cs).bind fun n => if n ≤ integerMagnitude then some (-n) else none
  | '+' :: cs => (digitsValue? cs).bind fun n => if n < integerMagnitude then some n else none
  | cs => (digitsValue? cs).bind fun n => if n < integerMagnitude then some n else none

end SchemaRoutes.Text
