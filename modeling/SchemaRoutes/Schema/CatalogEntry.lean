import SchemaRoutes.Schema.Traversal

/-! # Catalog entries

A schema as a catalog shows it: what is meant for the compiler is dropped, the keywords take their
OpenAPI 3.0 form, and every named sub-resource may be given inline or by link.
-/

namespace SchemaRoutes

namespace Schema

def controllerKey : String := "x-rest-controller"

def seedKey : String := "x-rest-blank-object"

end Schema

namespace CatalogEntry

/-- The alternative for a sub-resource given by link. -/
def link : Json := .obj [("type", .str "string"), ("format", .str "uri")]

/-- Keywords that no catalog entry keeps. -/
def compilerKeywords : List String :=
  ["$id", "$schema", "default", Schema.controllerKey, Schema.seedKey]

def withoutCompilerKeywords (node : Members) : Members := compilerKeywords.foldl Members.erase node

/-- A list of types becomes one type or a choice, and its `null` a flag. -/
def adaptType (node : Members) : Members :=
  match node.get? "type" with
  | some (.arr types) =>
    let named := types.filter (· ≠ .str "null")
    let typed :=
      match named with
      | [] => node.erase "type"
      | [type] => node.insert "type" type
      | several =>
        (node.erase "type").insert "anyOf" (.arr (several.map fun t => .obj [("type", t)]))
    if types.contains (.str "null") then typed.insert "nullable" (.bool true) else typed
  | _ => node

def adaptConst (node : Members) : Members :=
  match node.get? "const" with
  | some value => (node.erase "const").insert "enum" (.arr [value])
  | none => node

/-- The first example is kept. -/
def adaptExamples (node : Members) : Members :=
  match node.get? "examples" with
  | some (.arr (first :: _)) => (node.erase "examples").insert "example" first
  | some _ => node.erase "examples"
  | none => node

/-- A numeric exclusive bound becomes the bound with a flag. -/
def adaptBound (exclusive bound : String) (node : Members) : Members :=
  match node.get? exclusive with
  | some (.num limit) => (node.insert bound (.num limit)).insert exclusive (.bool true)
  | _ => node

def adaptPatterns (node : Members) : Members :=
  match node.get? "patternProperties" with
  | some patterns => (node.erase "patternProperties").insert "x-patternProperties" patterns
  | none => node

/-- The keywords in their OpenAPI 3.0 form. -/
def adapt (node : Members) : Members :=
  adaptPatterns (adaptBound "exclusiveMaximum" "maximum"
    (adaptBound "exclusiveMinimum" "minimum" (adaptExamples (adaptConst (adaptType node)))))

/-- Whether a sub-schema in this slot may be given by link. -/
def mayLink : Slot → Bool
  | .property _ | .items => true
  | _ => false

def visitor : Traversal.Visitor Unit Json where
  enter _ s u := (.descend s, u)
  leave ctx s children u :=
    match s with
    | .obj node =>
      let entry := Json.obj (adapt (withoutCompilerKeywords (Members.fillAll node children)))
      if ctx.slot?.any mayLink && Schema.isLinkable s then
        (.obj [("oneOf", .arr [entry, link])], u)
      else (entry, u)
    | _ => (s, u)

theorem visitor_shallow : visitor.Shallow := fun _ _ _ => Nat.le_refl _

end CatalogEntry

def Schema.catalogEntry (s : Schema) : Json :=
  (CatalogEntry.visitor.run CatalogEntry.visitor_shallow s ()).1

end SchemaRoutes
