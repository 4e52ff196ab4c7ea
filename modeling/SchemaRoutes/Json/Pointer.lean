import SchemaRoutes.Json.Basic
import SchemaRoutes.Text.Numeral
import SchemaRoutes.Text.Split

/-! # Pointers into documents

A pointer names a value by the keys and indices that lead to it. In a key `~1` stands for a slash
and `~0` for a tilde. Fragments are read leniently: what stands in front of the first key is
dropped, and an index may be written with a sign or with zeros in front.
-/

namespace SchemaRoutes

namespace Pointer

/-- Slashes come first, so that a tilde that is read is not taken for the start of an escape. -/
def unescape (part : List Char) : List Char :=
  Text.replacePair '~' '0' '~' (Text.replacePair '~' '1' '/' part)

/-- Tildes come first, so that those of escaped slashes are left alone. -/
def escape (key : List Char) : List Char :=
  Text.replaceChar '/' ['~', '1'] (Text.replaceChar '~' ['~', '0'] key)

/-- The keys of a path without its first slash. -/
def keysOfPath (path : List Char) : List String :=
  (Text.splitChars '/' path).map fun part => String.ofList (unescape part)

/-- The keys of a fragment. Number signs, then slashes, are dropped in front; a fragment of nothing
else has no keys. -/
def keys (fragment : String) : List String :=
  let path := (fragment.toList.dropWhile (· == '#')).dropWhile (· == '/')
  if path.isEmpty then [] else keysOfPath path

/-- The pointer with the given keys. -/
def ofKeys (keys : List String) : String :=
  String.ofList (keys.flatMap fun key => '/' :: escape key.toList)

def indexLimit : Nat := Nat.pow 2 64

/-- The number of an index without sign and without zeros in front. -/
def index? (key : String) : Option Nat :=
  match key.toList with
  | '+' :: _ | '0' :: _ :: _ => none
  | _ => Text.natural? indexLimit key

end Pointer

namespace Json

/-- The member under a key, or the element at an index as the function reads it. -/
def childBy? (index? : String → Option Nat) (j : Json) (key : String) : Option Json :=
  match j with
  | arr xs => (index? key).bind fun i => xs[i]?
  | j => j.get? key

/-- The value that a fragment names. -/
def pointed? (j : Json) (fragment : String) : Option Json :=
  (Pointer.keys fragment).foldlM (childBy? (Text.natural? Pointer.indexLimit)) j

/-- The value that a pointer names; each key of the pointer follows a slash. -/
def atPointer? (j : Json) (pointer : String) : Option Json :=
  match pointer.toList with
  | [] => some j
  | '/' :: path => (Pointer.keysOfPath path).foldlM (childBy? Pointer.index?) j
  | _ => none

end Json

end SchemaRoutes
