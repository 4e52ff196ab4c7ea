import SchemaRoutes.Host.Roots
import SchemaRoutes.Api.Compile
import SchemaRoutes.Api.Merge
import SchemaRoutes.Text.Numeral
import SchemaRoutes.Text.Split

/-! # Installing into a host document

The version of the document is checked, all roots are compiled into one API, and the API is merged
into the document.
-/

namespace SchemaRoutes

namespace Version

def limit : Nat := Nat.pow 2 64

def supportedMajor : Nat := 3

/-- Three numbers with a point between each two. -/
def parse? (text : String) : Option (Nat × Nat × Nat) :=
  match Text.split '.' text with
  | [major, minor, patch] => do
    let major ← Text.natural? limit major
    let minor ← Text.natural? limit minor
    let patch ← Text.natural? limit patch
    return (major, minor, patch)
  | _ => none

def isSupported (text : String) : Bool := (parse? text).any fun v => v.1 == supportedMajor

def check (doc : Json) : Except CompileError Unit :=
  match doc.get? "openapi" with
  | none | some .null => .error .versionMissing
  | some (.str text) => if isSupported text then .ok () else .error (.versionUnsupported text)
  | some other => .error (.versionUnsupported other.compact)

end Version

namespace Api

/-- Compiles all roots into one API. -/
def ofRoots (dispatcher : String) (roots : Roots) : Except CompileError Api :=
  roots.foldlM (fun api root => api.mount root.schema root.baseUrl) (empty dispatcher)

def install (dispatcher : String) (roots : Roots) : Edit Api := do
  Edit.ofExcept (Version.check (← get))
  let api ← Edit.ofExcept (ofRoots dispatcher roots)
  api.addTo
  return api

end Api

end SchemaRoutes
