import SchemaRoutes.Json.Pointer
import SchemaRoutes.Source.Document

/-! # References

Every object with a text `$ref` is replaced by its other members, followed by those members of the
referenced value that it lacks. A reference that leads back into itself is an error. The
places not yet entered bound the recursion: each place that is entered is no longer open below.
-/

namespace SchemaRoutes

/-- A document that references are resolved against. -/
structure Document where
  root : Json
  /-- The directory its relative references start from. -/
  directory : String
  /-- What identifies it; nothing for the document at hand. -/
  key : String

namespace Reference

def of? (ms : Members) : Option String := (ms.get? "$ref").bind Json.str?

/-- Appends the members that are not there yet. -/
def adopt (own target : Members) : Members :=
  target.foldl (fun (own : Members) m => if own.has m.1 then own else own ++ [m]) own

mutual

/-- Inlines every reference of a value, given what each leads to. -/
def inlineWith {ε : Type} (follow : String → Except ε Json) : Json → Except ε Json
  | .obj ms =>
    match of? ms with
    | some reference => do
      let target ← follow reference
      let own ← inlineMembers follow true ms
      return .obj (adopt own target.members)
    | none => return .obj (← inlineMembers follow false ms)
  | .arr xs => return .arr (← inlineItems follow xs)
  | .null => .ok .null
  | .bool b => .ok (.bool b)
  | .num n => .ok (.num n)
  | .str s => .ok (.str s)
termination_by structural j => j

def inlineItems {ε : Type} (follow : String → Except ε Json) :
    List Json → Except ε (List Json)
  | [] => .ok []
  | x :: xs => do
    let x ← inlineWith follow x
    return x :: (← inlineItems follow xs)
termination_by structural xs => xs

/-- Inlines the values of members in order, without the reference itself where told so. -/
def inlineMembers {ε : Type} (follow : String → Except ε Json) (dropReference : Bool) :
    Members → Except ε Members
  | [] => .ok []
  | (k, x) :: ms =>
    if dropReference && k == "$ref" then inlineMembers follow dropReference ms
    else do
      let x ← inlineWith follow x
      return (k, x) :: (← inlineMembers follow dropReference ms)
termination_by structural ms => ms

end

mutual

/-- Every reference in a value. -/
def all : Json → List String
  | .obj ms => (of? ms).toList ++ allInMembers ms
  | .arr xs => allInItems xs
  | _ => []
termination_by structural j => j

def allInItems : List Json → List String
  | [] => []
  | x :: xs => all x ++ allInItems xs
termination_by structural xs => xs

def allInMembers : Members → List String
  | [] => []
  | (_, x) :: ms => all x ++ allInMembers ms
termination_by structural ms => ms

end

/-- The document part and the fragment, which keeps its number sign. -/
def parts (reference : String) : String × String := Text.cutAt '#' reference

/-- A place that a reference leads to: a document and a fragment of it. -/
def placeKey (document fragment : String) : String := document ++ "|" ++ fragment

def point (j : Json) (fragment : String) : Except SourceError Json :=
  match j.pointed? fragment with
  | some target => .ok target
  | none => .error (.danglingReference fragment)

/-- Loads the document that a reference names. -/
def external (t : FileTree) (location directory : String) : Except SourceError Document :=
  if isUrl location then .error (.notFound location)
  else do
    let path := Path.join directory location
    let root ← t.load path
    return ⟨root, (Path.parent? path).getD directory, t.canonical path⟩

/-- What a reference leads to. -/
structure Target where
  document : Document
  place : String
  value : Json

def locate (t : FileTree) (doc : Document) (reference : String) : Except SourceError Target := do
  let (location, fragment) := parts reference
  let document ← if location.isEmpty then .ok doc else external t location doc.directory
  let value ← point document.root fragment
  return ⟨document, placeKey document.key fragment, value⟩

/-- The open places once one of them is entered. -/
def close (place : String) (places : List String) : List String := places.filter (· ≠ place)

theorem length_close_lt {place : String} {places : List String} (h : place ∈ places) :
    (close place places).length < places.length :=
  List.length_filter_lt_length_iff_exists.mpr ⟨place, h, by simp⟩

/-- Inlines with only the given places open. -/
def inline (t : FileTree) (places : List String) (doc : Document) (value : Json) :
    Except SourceError Json :=
  inlineWith
    (fun reference => do
      let target ← locate t doc reference
      if _open : target.place ∈ places then
        inline t (close target.place places) target.document target.value
      else .error (.circularReference reference))
    value
termination_by places.length
decreasing_by exact length_close_lt _open

/-- The documents of a file tree with what identifies them. -/
def documents (t : FileTree) : List (String × Json) :=
  t.entries.filterMap fun (place, entry) =>
    match entry with
    | .file (.text text) => (Json.read? text).map fun j => (Place.path place, j)
    | _ => none

/-- Every place that a reference of the value or of a file can lead to. -/
def places (t : FileTree) (value : Json) : List String :=
  let documents := ("", value) :: documents t
  let fragments := (documents.flatMap fun d => (all d.2).map fun r => (parts r).2).eraseDups
  documents.flatMap fun d => fragments.map fun f => placeKey d.1 f

end Reference

/-- Inlines every reference of a value that lies in a directory. -/
def inlineReferences (t : FileTree) (value : Json) (directory : String) : Except SourceError Json :=
  Reference.inline t (Reference.places t value) ⟨value, directory, ""⟩ value

end SchemaRoutes
