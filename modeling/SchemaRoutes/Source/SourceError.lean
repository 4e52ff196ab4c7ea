import SchemaRoutes.Text.Message

/-! # Source errors

What can go wrong while documents are read and put together. Some errors come with a detail, which
follows their summary after a colon.
-/

namespace SchemaRoutes

inductive SourceError where
  | notFound (path : String)
  | unreadable (path : String)
  | notJson
  | notASchema
  | danglingReference (reference : String)
  | circularReference (reference : String)
  deriving DecidableEq, Repr

namespace SourceError

def summary : SourceError → String
  | notFound path => "file not found: " ++ path
  | unreadable path => "cannot read " ++ path
  | notJson => "invalid JSON"
  | notASchema => "invalid schema"
  | danglingReference reference => "cannot dereference " ++ reference ++ ": fragment not found"
  | circularReference reference => "cannot dereference " ++ reference ++ ": circular reference"

def detail? : SourceError → Option String
  | unreadable _ => some "not a text file"
  | notJson => some "not a document of the expected form"
  | notASchema => some "a keyword has a value that is not allowed"
  | _ => none

def exitCode : SourceError → Nat
  | notFound _ | unreadable _ => 3
  | _ => 2

def message (e : SourceError) : String := Text.withDetail e.summary e.detail?

end SourceError

end SchemaRoutes
