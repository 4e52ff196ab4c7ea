import SchemaRoutes.Schema.CatalogEntry
import SchemaRoutes.Api.Basic

/-! # OpenAPI documents

Parameters, operations, endpoints and whole APIs as parts of an OpenAPI 3.0 document.
-/

namespace SchemaRoutes

namespace ExtensionKeys

def dispatcher : String := "x-rest-dispatcher"

def template : String := "x-rest-path-template"

def base : String := "x-rest-path-base"

def trail : String := "x-rest-schema-path"

end ExtensionKeys

def IdParameter.toOpenApi (p : IdParameter) : Json :=
  .obj [("in", .str "path"), ("name", .str p.name),
    ("schema", .obj [("type", .str "integer")]), ("required", .bool true),
    ("description", .str p.description)]

namespace TrailStep

def toJson : TrailStep → Json
  | property name => .obj [("property", .str name)]
  | item parameter => .obj [("item", .str parameter)]

/-- Reads an object with the one member that names the step. -/
def ofJson? : Json → Option TrailStep
  | .obj [("property", .str name)] => some (.property name)
  | .obj [("item", .str parameter)] => some (.item parameter)
  | _ => none

def listOfJson? : Json → Option (List TrailStep)
  | .arr steps => steps.mapM ofJson?
  | _ => none

end TrailStep

namespace EntryRef

def pointer (name : String) : String := "#/components/schemas/" ++ name

def toOpenApi : EntryRef → Json
  | one name => .obj [("$ref", .str (pointer name))]
  | listOf name =>
    .obj [("type", .str "array"), ("items", .obj [("$ref", .str (pointer name))])]

/-- The content member of a body, if it has a type. -/
def content : Option EntryRef → Members
  | none => []
  | some type =>
    [("content", .obj [("application/json", .obj [("schema", type.toOpenApi)])])]

end EntryRef

namespace Operation

def requestBody (op : Operation) : Members :=
  match op.request with
  | none => []
  | some body =>
    [("requestBody", .obj ([("description", .str body.description), ("required", .bool true)] ++
      EntryRef.content body.type))]

/-- The one response, under its status. -/
def responses (op : Operation) : Json :=
  .obj [(Text.decimal op.status,
    .obj (("description", .str op.response.description) :: EntryRef.content op.response.type))]

def toOpenApi (op : Operation) (parameters : List IdParameter) : Json :=
  .obj ([("summary", .str op.summary), ("operationId", .str op.id),
      ("parameters", .arr (parameters.map IdParameter.toOpenApi))] ++
    op.requestBody ++ [("responses", op.responses)])

end Operation

namespace Endpoint

/-- The members of a path item besides its operations. -/
def extensions (e : Endpoint) : Members :=
  [(ExtensionKeys.dispatcher, .str e.dispatcher), (Schema.controllerKey, .str e.handler),
    (Schema.seedKey, .str e.seed), (ExtensionKeys.template, .str e.template),
    (ExtensionKeys.base, .str e.baseUrl),
    (ExtensionKeys.trail, .arr (e.trail.map TrailStep.toJson))]

/-- The path item. -/
def toOpenApi (e : Endpoint) : Json :=
  .obj (e.operations.foldl
    (fun (ms : Members) op => ms.insert op.action.httpMethod (op.toOpenApi e.parameters))
    e.extensions)

end Endpoint

namespace Api

/-- Sets the path item of every endpoint in order. -/
def insertPaths (api : Api) (ms : Members) : Members :=
  api.endpoints.foldl (fun (ms : Members) e => ms.insert e.url e.toOpenApi) ms

def toOpenApi (api : Api) : Json :=
  .obj [("paths", .obj (api.insertPaths [])),
    ("components", .obj [("schemas", .obj api.catalog)])]

end Api

end SchemaRoutes
