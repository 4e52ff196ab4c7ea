import SchemaRoutes.Json.Reader
import SchemaRoutes.Json.Text
import SchemaRoutes.Schema.Seed
import SchemaRoutes.Schema.CatalogEntry
import SchemaRoutes.Api.Basic
import SchemaRoutes.Api.CompileError
import SchemaRoutes.Api.Site

/-! # Compiling schemas

Each site of a schema is added in order: for an item its catalog entry, then its endpoint. The
first site that cannot be added stops the compilation.
-/

namespace SchemaRoutes

/-- Where a root stands: its base URL gives the URLs and qualifies the catalog names. -/
structure Mount where
  baseUrl : String
  deriving DecidableEq, Repr

namespace Mount

def dotted (c : Char) : Char := if c = '/' then '.' else c

def scope (m : Mount) : String := m.baseUrl.map dotted

def qualify (m : Mount) (title : String) : String :=
  if m.scope.isEmpty then title else m.scope ++ "::" ++ title

def url (m : Mount) (pos : Position) : String :=
  let url := m.baseUrl ++ pos.template
  if url.isEmpty then "/" else url

end Mount

namespace Operation

def make (action : ResourceAction) (url summary : String) (request : Option MessageBody)
    (status : Nat) (response : MessageBody) : Operation :=
  ⟨action, summary, action.name ++ " " ++ url, status, request, response⟩

def ofItem (readOnly : Bool) (title name url : String) : List Operation :=
  let type := some (EntryRef.one name)
  [make .getItem url ("Gets a single " ++ title) none 200 ⟨"The " ++ title, type⟩,
    make .patchItem url ("Modify a " ++ title)
      (some ⟨"The modified " ++ title ++ " values", type⟩) 200
      ⟨"The modified " ++ title, type⟩,
    make .putItem url ("Replace a " ++ title)
      (some ⟨"The new " ++ title ++ " to replace this one", type⟩) 200
      ⟨"The replaced " ++ title, type⟩] ++
  if readOnly then []
  else [make .deleteItem url ("Delete a " ++ title) none 204 ⟨"No content", none⟩]

def ofCollection (readOnly : Bool) (title name url : String) : List Operation :=
  make .getItems url ("Gets a list of " ++ title) none 200
      ⟨"The list of " ++ title, some (.listOf name)⟩ ::
  if readOnly then []
  else
    [make .postItems url ("Create a new " ++ title)
      (some ⟨"The new " ++ title ++ " to be created", some (.one name)⟩) 201
      ⟨"The new " ++ title, some (.one name)⟩]

end Operation

namespace Schema

/-- The name shown for a schema in texts. -/
def display (s : Schema) : String := s.title?.getD "item"

def requireTitle (s : Schema) : Except CompileError String :=
  match s.title? with
  | some title => .ok title
  | none => .error (.untitled s.compact)

def requireHandler (s : Schema) : Except CompileError String :=
  match (s.get? controllerKey).bind Json.str? with
  | some handler => if handler.isEmpty then .error (.handlerMissing s.display) else .ok handler
  | none => .error (.handlerMissing s.display)

/-- The text of the seed, or of the value that the schema gives instead. -/
def seedText (s : Schema) : Except CompileError String :=
  match s.get? seedKey with
  | some (.str text) =>
    if (Json.read? text).isSome then .ok text else .error (.unreadableSeed s.display)
  | some value => .ok value.compact
  | none => .ok s.seed.compact

end Schema

namespace Api

def addEndpoint (api : Api) (mount : Mount) (site : Site) : Except CompileError Api := do
  let s := site.schema
  let handler ← s.requireHandler
  let url := mount.url site.position
  if (api.endpoint? url).isSome then throw (.urlTaken url s.display)
  let name := mount.qualify (← s.requireTitle)
  let seed ← s.seedText
  let operations :=
    match site.kind with
    | .item => Operation.ofItem s.isReadOnly s.display name url
    | .collection => Operation.ofCollection s.isReadOnly s.display name url
  let template := site.position.template
  let endpoint : Endpoint :=
    { url, baseUrl := mount.baseUrl, template := if template.isEmpty then "/" else template,
      kind := site.kind, parameters := site.position.parameters,
      trail := site.position.steps, handler, dispatcher := api.dispatcher, seed, operations }
  return { api with endpoints := api.endpoints ++ [endpoint] }

def addEntry (api : Api) (mount : Mount) (s : Schema) : Except CompileError Api := do
  let name := mount.qualify (← s.requireTitle)
  if api.catalog.has name then throw (.nameTaken name)
  return { api with catalog := api.catalog ++ [(name, s.catalogEntry)] }

def addSite (mount : Mount) (api : Api) (site : Site) : Except CompileError Api := do
  match site.kind with
  | .item => (← api.addEntry mount site.schema).addEndpoint mount site
  | .collection => api.addEndpoint mount site

/-- Compiles one more root under a base URL. -/
def mount (api : Api) (schema : Schema) (baseUrl : String) : Except CompileError Api :=
  if schema.isRecord && schema.properties?.isSome then
    (Site.all schema).foldlM (addSite ⟨baseUrl⟩) api
  else .error .rootNotRecord

def ofSchema (schema : Schema) (dispatcher baseUrl : String) : Except CompileError Api :=
  (empty dispatcher).mount schema baseUrl

end Api

end SchemaRoutes
