import SchemaRoutes.Json.Basic
import SchemaRoutes.Text.Numeral

/-! # Endpoints

An endpoint serves one URL of an API: the steps from the schema root lead to its resource, and its
operations say what clients may do there.
-/

namespace SchemaRoutes

/-- An integer parameter that picks one member of a collection. -/
structure IdParameter where
  name : String
  description : String
  deriving DecidableEq, Repr

/-- Text in braces, as a template writes a parameter. -/
def braced (name : String) : String := "\x7b" ++ name ++ "\x7d"

namespace IdParameter

/-- The parameter with a number of others before it. -/
def nth (index : Nat) (title : Option String) : IdParameter :=
  ⟨"pathParam" ++ Text.decimal index, "ID for " ++ title.getD "item"⟩

def placeholder (p : IdParameter) : String := braced p.name

end IdParameter

/-- One step from the root towards a resource. -/
inductive TrailStep where
  | property (name : String)
  /-- One member of a collection, by the named parameter. -/
  | item (parameter : String)
  deriving DecidableEq, Repr

inductive ResourceAction where
  | getItem | patchItem | putItem | deleteItem | getItems | postItems
  deriving DecidableEq, Repr

namespace ResourceAction

def httpMethod : ResourceAction → String
  | getItem | getItems => "get"
  | patchItem => "patch"
  | putItem => "put"
  | deleteItem => "delete"
  | postItems => "post"

def name : ResourceAction → String
  | getItem => "getItem"
  | patchItem => "patchItem"
  | putItem => "putItem"
  | deleteItem => "deleteItem"
  | getItems => "getItems"
  | postItems => "postItems"

def all : List ResourceAction := [getItem, patchItem, putItem, deleteItem, getItems, postItems]

def ofName? (name : String) : Option ResourceAction := all.find? fun action => action.name == name

end ResourceAction

/-- A reference from an operation to a catalog entry. -/
inductive EntryRef where
  | one (name : String)
  | listOf (name : String)
  deriving DecidableEq, Repr

def EntryRef.target : EntryRef → String
  | one name | listOf name => name

structure MessageBody where
  description : String
  type : Option EntryRef
  deriving DecidableEq, Repr

structure Operation where
  action : ResourceAction
  summary : String
  id : String
  status : Nat
  request : Option MessageBody
  response : MessageBody
  deriving DecidableEq, Repr

inductive EndpointKind where
  /-- List and create. -/
  | collection
  /-- Get, modify, replace and delete one resource. -/
  | item
  deriving DecidableEq, Repr

structure Endpoint where
  url : String
  baseUrl : String
  /-- The URL without its base. -/
  template : String
  kind : EndpointKind
  parameters : List IdParameter
  trail : List TrailStep
  /-- Name of the handler of the resource. -/
  handler : String
  /-- Name of the dispatcher that requests go through. -/
  dispatcher : String
  /-- Text of the value that a new resource starts from. -/
  seed : String
  operations : List Operation
  deriving DecidableEq, Repr

def Endpoint.operation? (e : Endpoint) (action : ResourceAction) : Option Operation :=
  e.operations.find? fun op => op.action == action

end SchemaRoutes
