import SchemaRoutes.Host.Roots
import SchemaRoutes.Source.Reference

/-! # Manifests

A file that lists the schemas to compile. Its relative paths start from its own directory.
-/

namespace SchemaRoutes

/-- One schema file. -/
structure ManifestEntry where
  path : String
  baseUrl : Option String
  deriving DecidableEq, Repr

structure Manifest where
  /-- Name of the dispatcher; one is made up when absent. -/
  dispatcher : Option String
  /-- Path of the host document to install into. -/
  document : Option String
  schemas : List ManifestEntry
  deriving DecidableEq, Repr

/-- Loads one more root from a file. -/
def Roots.addFile (t : FileTree) (roots : Roots) (path baseUrl : String) :
    Except SourceError Roots := do
  let schema ← inlineReferences t (← t.load path) (Path.directory path)
  return roots ++ [⟨schema, baseUrl⟩]

/-- A text that may be absent or `null`. -/
def optionalText? : Option Json → Option (Option String)
  | none | some .null => some none
  | some (.str s) => some (some s)
  | _ => none

def optionalJson (text : Option String) : Json :=
  match text with
  | some s => .str s
  | none => .null

namespace ManifestEntry

def ofJson? (j : Json) : Option ManifestEntry :=
  match j.fields? ["path", "baseUrl"] with
  | some [some (.str path), baseUrl] => (optionalText? baseUrl).map fun b => ⟨path, b⟩
  | _ => none

def toJson (e : ManifestEntry) : Json :=
  .obj [("path", .str e.path), ("baseUrl", optionalJson e.baseUrl)]

end ManifestEntry

namespace Manifest

def entries? : Option Json → Option (List ManifestEntry)
  | none => some []
  | some (.arr entries) => entries.mapM ManifestEntry.ofJson?
  | _ => none

def ofJson? (j : Json) : Option Manifest :=
  match j.fields? ["controller", "document", "schemas"] with
  | some [dispatcher, document, schemas] => do
    let dispatcher ← optionalText? dispatcher
    let document ← optionalText? document
    let schemas ← entries? schemas
    return ⟨dispatcher, document, schemas⟩
  | _ => none

def toJson (manifest : Manifest) : Json :=
  .obj [("controller", optionalJson manifest.dispatcher),
    ("document", optionalJson manifest.document),
    ("schemas", .arr (manifest.schemas.map ManifestEntry.toJson))]

/-- The manifest with its paths taken from a directory. -/
def relativeTo (directory : String) (manifest : Manifest) : Manifest :=
  { manifest with
    document := manifest.document.map (Path.join directory)
    schemas := manifest.schemas.map fun e => { e with path := Path.join directory e.path } }

def load (t : FileTree) (path : String) : Except SourceError Manifest := do
  match ofJson? (← t.load path) with
  | some manifest => return manifest.relativeTo (Path.directory path)
  | none => throw .notJson

/-- Loads every listed schema. -/
def roots (t : FileTree) (manifest : Manifest) : Except SourceError Roots :=
  manifest.schemas.foldlM (fun roots e => Roots.addFile t roots e.path (e.baseUrl.getD "")) []

end Manifest

end SchemaRoutes
