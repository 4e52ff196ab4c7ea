import SchemaRoutes.Json.Basic

/-! # Roots

The schemas to compile, in order, and how they are written in documents. A record is written as an
object, whose unknown members are ignored, or as a list of its fields in order.
-/

namespace SchemaRoutes

/-- One root: its schema without references, and the URL in front of its endpoints. -/
structure Root where
  schema : Json
  baseUrl : String
  deriving DecidableEq

abbrev Roots := List Root

/-- The fields of a record by name; in a list they come in order, none beyond the last. -/
def Json.fields? (names : List String) : Json → Option (List (Option Json))
  | obj ms => some (names.map fun name => ms.lookup name)
  | arr xs =>
    if xs.length ≤ names.length then
      some (xs.map some ++ List.replicate (names.length - xs.length) none)
    else none
  | _ => none

namespace Root

def toJson (r : Root) : Json := .obj [("schema", r.schema), ("baseUrl", .str r.baseUrl)]

def ofJson? (j : Json) : Option Root :=
  match j.fields? ["schema", "baseUrl"] with
  | some [some schema, none] => some ⟨schema, ""⟩
  | some [some schema, some (.str baseUrl)] => some ⟨schema, baseUrl⟩
  | _ => none

end Root

namespace Roots

def toJson (roots : Roots) : Json := .obj [("schemas", .arr (roots.map Root.toJson))]

def ofJson? (j : Json) : Option Roots :=
  match j.fields? ["schemas"] with
  | some [none] => some []
  | some [some (.arr roots)] => roots.mapM Root.ofJson?
  | _ => none

end Roots

end SchemaRoutes
