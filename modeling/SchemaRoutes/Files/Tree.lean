import SchemaRoutes.Files.Path

/-! # File trees

Files and directories under their places, the names that lead to them from the top. Every place on
the way to a file is a directory.
-/

namespace SchemaRoutes

inductive Content where
  | text (text : String)
  /-- Bytes that are no UTF-8 text. -/
  | binary
  deriving DecidableEq, Repr

inductive Entry where
  | file (content : Content)
  | directory
  deriving DecidableEq, Repr

abbrev Place := List String

structure FileTree where
  entries : List (Place × Entry)
  /-- The directory that relative paths start from. -/
  current : Place

def Content.ofBytes (bytes : List UInt8) : Content :=
  match String.fromUTF8? ⟨bytes.toArray⟩ with
  | some s => .text s
  | none => .binary

namespace Place

/-- The place as an absolute path. -/
def path (place : Place) : String := String.join (place.map ("/" ++ ·))

end Place

namespace FileTree

def isDirectory (t : FileTree) (place : Place) : Bool :=
  place.isEmpty || place.isPrefixOf t.current ||
    t.entries.any fun e => place.isPrefixOf e.1 && (e.1 != place || e.2 == .directory)

def entry? (t : FileTree) (place : Place) : Option Entry :=
  if t.isDirectory place then some .directory else t.entries.lookup place

/-- Follows one part of a path, which must start in a directory. -/
def follow (t : FileTree) (place : Place) (part : String) : Option Place :=
  if !t.isDirectory place then none
  else if part = "" ∨ part = "." then some place
  else if part = ".." then some place.dropLast
  else
    let next := place ++ [part]
    if (t.entry? next).isSome then some next else none

def start (t : FileTree) (path : String) : Place := if Path.isAbsolute path then [] else t.current

/-- Follows the parts of a path that a system accepts. -/
def followAll (t : FileTree) (path : String) (parts : List String) : Option Place :=
  if Path.isUsable path then parts.foldlM t.follow (t.start path) else none

/-- The place that a path leads to. -/
def resolve? (t : FileTree) (path : String) : Option Place := t.followAll path (Path.parts path)

inductive ReadResult where
  | missing
  | unreadable
  | text (text : String)

def read (t : FileTree) (path : String) : ReadResult :=
  match (t.resolve? path).bind t.entry? with
  | none => .missing
  | some (.file (.text s)) => .text s
  | some _ => .unreadable

/-- The absolute path of an existing file, however it is spelt. -/
def canonical (t : FileTree) (path : String) : String :=
  ((t.resolve? path).map Place.path).getD path

def setEntry (place : Place) (entry : Entry) : List (Place × Entry) → List (Place × Entry)
  | [] => [(place, entry)]
  | e :: es => if e.1 = place then (place, entry) :: es else e :: setEntry place entry es

/-- The place where writing to a path puts the text: a file that is there, or a new name in a
directory that is there. -/
def target? (t : FileTree) (path : String) : Option Place :=
  match t.resolve? path with
  | some place => if t.isDirectory place then none else some place
  | none =>
    match (Path.parts path).getLast? with
    | none | some "" | some "." | some ".." => none
    | some name =>
      (t.followAll path (Path.parts path).dropLast).bind fun place =>
        if t.isDirectory place && Path.isFileName name then some (place ++ [name]) else none

def write? (t : FileTree) (path text : String) : Option FileTree :=
  (t.target? path).map fun place =>
    { t with entries := setEntry place (.file (.text text)) t.entries }

end FileTree

end SchemaRoutes
