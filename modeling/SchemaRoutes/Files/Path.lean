import SchemaRoutes.Text.Split

/-! # Paths as text

Joining and taking the parent keep the spelling of a path: only what is cut off changes.
-/

namespace SchemaRoutes.Path

def isAbsolute (path : String) : Bool := path.toList.head? == some '/'

def parts (path : String) : List String := Text.split '/' path

def endsWithSlash (path : String) : Bool := path.toList.getLast? == some '/'

/-- A path that can be opened is not empty and has fewer than 4096 bytes. -/
def isUsable (path : String) : Bool := !path.isEmpty && decide (path.utf8ByteSize < 4096)

/-- The name of a file has fewer than 256 bytes. -/
def isFileName (name : String) : Bool := decide (name.utf8ByteSize < 256)

/-- An absolute path replaces the base. -/
def join (base path : String) : String :=
  if isAbsolute path || base.isEmpty then path
  else if endsWithSlash base then base ++ path
  else base ++ "/" ++ path

/-- Whether a part is a step; a dot is one only at the start of a relative path. -/
def isStep (part : String) : Bool := part != "" && part != "."

def dropIdle (parts : List String) : List String :=
  (parts.reverse.dropWhile fun part => !isStep part).reverse

def joinParts (parts : List String) : String := String.intercalate "/" parts

/-- The path without its last step; a path with no step has no parent. -/
def parent? (path : String) : Option String :=
  match parts path with
  | "" :: rest =>
    match dropIdle rest with
    | [] => none
    | steps => some ("/" ++ joinParts (dropIdle steps.dropLast))
  | "." :: rest =>
    match dropIdle rest with
    | [] => some ""
    | steps => some (joinParts ("." :: dropIdle steps.dropLast))
  | rest =>
    match dropIdle rest with
    | [] => none
    | steps => some (joinParts (dropIdle steps.dropLast))

/-- The directory that holds a file. -/
def directory (path : String) : String := (parent? path).getD "."

end SchemaRoutes.Path
