import SchemaRoutes.Json.Basic
import SchemaRoutes.Json.Decimal

/-! # Writing documents

Compact text, and text indented by two spaces. Strings escape the quote, the backslash and the
controls below U+0020 only.
-/

namespace SchemaRoutes

def Number.text : Number → List Char
  | .int n => if n < 0 then '-' :: Nat.toDigits 10 n.natAbs else Nat.toDigits 10 n.natAbs
  | .double d => d.text

namespace Json

def escape (c : Char) : List Char :=
  if c = '"' then ['\\', '"']
  else if c = '\\' then ['\\', '\\']
  else if c.toNat < 32 then
    if c = '\n' then ['\\', 'n']
    else if c = '\r' then ['\\', 'r']
    else if c = '\t' then ['\\', 't']
    else if c.toNat = 8 then ['\\', 'b']
    else if c.toNat = 12 then ['\\', 'f']
    else ['\\', 'u', '0', '0', Nat.digitChar (c.toNat / 16), Nat.digitChar (c.toNat % 16)]
  else [c]

def quoted (s : String) : List Char := '"' :: s.toList.flatMap escape ++ ['"']

/-- White space of a style: what precedes an entry at a level, and what follows a colon. -/
structure Spacing where
  newline : Nat → List Char
  afterColon : List Char

def Spacing.none : Spacing := ⟨fun _ => [], []⟩

def Spacing.indented : Spacing := ⟨fun level => '\n' :: List.replicate (2 * level) ' ', [' ']⟩

mutual

def write (sp : Spacing) (level : Nat) : Json → List Char
  | null => ['n', 'u', 'l', 'l']
  | bool true => ['t', 'r', 'u', 'e']
  | bool false => ['f', 'a', 'l', 's', 'e']
  | num n => n.text
  | str s => quoted s
  | arr [] => ['[', ']']
  | arr (x :: xs) =>
    '[' :: (sp.newline (level + 1) ++ (write sp (level + 1) x ++
      (writeItems sp (level + 1) xs ++ (sp.newline level ++ [']']))))
  | obj [] => ['{', '}']
  | obj ((k, x) :: ms) =>
    '{' :: (sp.newline (level + 1) ++ (quoted k ++ ':' :: (sp.afterColon ++
      (write sp (level + 1) x ++ (writeMembers sp (level + 1) ms ++
        (sp.newline level ++ ['}']))))))
termination_by structural j => j

def writeItems (sp : Spacing) (level : Nat) : List Json → List Char
  | [] => []
  | x :: xs => ',' :: (sp.newline level ++ (write sp level x ++ writeItems sp level xs))
termination_by structural xs => xs

def writeMembers (sp : Spacing) (level : Nat) : List (String × Json) → List Char
  | [] => []
  | (k, x) :: ms =>
    ',' :: (sp.newline level ++ (quoted k ++ ':' :: (sp.afterColon ++
      (write sp level x ++ writeMembers sp level ms))))
termination_by structural ms => ms

end

def compact (j : Json) : String := String.ofList (write .none 0 j)

def pretty (j : Json) : String := String.ofList (write .indented 0 j)

end Json

end SchemaRoutes
