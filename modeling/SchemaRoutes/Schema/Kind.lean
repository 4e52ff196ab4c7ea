import SchemaRoutes.Json.Basic

/-! # Kinds of schemas

The questions asked of one schema node, each answered from its own members.
-/

namespace SchemaRoutes

/-- A schema is any document; what carries no members has no keywords. -/
abbrev Schema := Json

namespace Schema

/-- The declared type, when it is a single name. -/
def typeName? (s : Schema) : Option String := (s.get? "type").bind Json.str?

def title? (s : Schema) : Option String := (s.get? "title").bind Json.str?

def properties? (s : Schema) : Option Members :=
  match s.get? "properties" with
  | some (.obj ms) => some ms
  | _ => none

def declares (s : Schema) (key : String) : Bool :=
  match s.get? key with
  | none | some .null => false
  | some _ => true

def isIdentified (s : Schema) : Bool := s.declares "$id"

def isReadOnly (s : Schema) : Bool := ((s.get? "readOnly").bind Json.bool?).getD false

def isList (s : Schema) : Bool := s.typeName? == some "array"

/-- Of object type, or any node with properties. -/
def holdsMembers (s : Schema) : Bool := s.typeName? == some "object" || s.properties?.isSome

/-- Of object type, or of no type and with properties. -/
def isRecord (s : Schema) : Bool :=
  match s.get? "type" with
  | some (.str t) => t == "object"
  | some _ => false
  | none => s.properties?.isSome

/-- Named, and of object, boolean or no type: such a node may be given inline or by link. -/
def isLinkable (s : Schema) : Bool :=
  (s.isIdentified || s.declares "title") &&
    match s.get? "type" with
    | some (.str t) => t == "object" || t == "boolean"
    | some _ => false
    | none => true

end Schema

end SchemaRoutes
