import SchemaRoutes.Text.Message

/-! # Compile errors

What can stop a compilation, its merge into a host document or the work of a host on it.
-/

namespace SchemaRoutes

inductive CompileError where
  | rootNotRecord
  /-- Holds the text of the schema. -/
  | untitled (schema : String)
  | nameTaken (title : String)
  | handlerMissing (title : String)
  | urlTaken (url title : String)
  | unreadableSeed (title : String)
  | versionMissing
  | versionUnsupported (version : String)
  | notAnObject (location : String)
  | dispatcherTaken (name : String)
  | alreadyEquipped (name : String)
  deriving DecidableEq, Repr

namespace CompileError

def summary : CompileError → String
  | rootNotRecord => "root schema must have object type and have properties"
  | untitled schema => "missing title in schema: " ++ schema
  | nameTaken title => "duplicate schema with title " ++ title
  | handlerMissing title => "schema " ++ title ++ " is missing x-rest-controller"
  | urlTaken url title => "duplicate path " ++ url ++ " found for schema " ++ title
  | unreadableSeed title => "invalid x-rest-blank-object for schema " ++ title
  | versionMissing => "OpenAPI definition is missing 'openapi' field"
  | versionUnsupported version => "OpenAPI version " ++ version ++ " not supported"
  | notAnObject location =>
    "OpenAPI definition has a non-object value at " ++ location
  | dispatcherTaken name => "controller already added with name " ++ name
  | alreadyEquipped name => "controller " ++ name ++ " was already initialized"

def detail? : CompileError → Option String
  | unreadableSeed _ => some "not a JSON text"
  | _ => none

def message (e : CompileError) : String := Text.withDetail e.summary e.detail?

def exitCode (_ : CompileError) : Nat := 2

end CompileError

end SchemaRoutes
