import SchemaRoutes.Schema.CatalogEntry
import SchemaRoutes.Api.OpenApi

/-! # Routes

What a request needs to know of its endpoint, taken from a compiled endpoint or read from a host
document.
-/

namespace SchemaRoutes

structure Route where
  handler : String
  template : String
  /-- Text of the value that a new resource starts from. -/
  seed : Option String
  deriving DecidableEq, Repr

namespace Route

def text? (j : Json) (key : String) : Option String := (j.get? key).bind Json.str?

/-- Reads a path item and one of its operations, which wins over the item. -/
def ofOpenApi (item operation : Json) : Route :=
  let find (key : String) := (text? operation key).or (text? item key)
  { handler := (find Schema.controllerKey).getD ""
    template := (text? item ExtensionKeys.template).getD ""
    seed := find Schema.seedKey }

def ofEndpoint (e : Endpoint) : Route := ⟨e.handler, e.template, some e.seed⟩

end Route

end SchemaRoutes
