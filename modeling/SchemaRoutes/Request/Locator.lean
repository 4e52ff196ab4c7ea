import SchemaRoutes.Request.RequestError
import SchemaRoutes.Text.Numeral
import SchemaRoutes.Text.Split

/-! # Locators

A path template with its parameters replaced by the identifiers of a request. The first placeholder
without an integer is the one reported.
-/

namespace SchemaRoutes

inductive Segment where
  | property (name : String)
  | identifier (id : Int)
  deriving DecidableEq, Repr

abbrev Locator := List Segment

/-- Raw values of path parameters. -/
abbrev Parameters := List (String × String)

namespace Locator

/-- The name in a segment that is written in braces. -/
def placeholder? (segment : String) : Option String :=
  match segment.toList with
  | '{' :: rest =>
    if rest.getLast? == some '}' then some (String.ofList rest.dropLast) else none
  | _ => none

def segment (params : Parameters) (text : String) : Except RequestError Segment :=
  match placeholder? text with
  | none => .ok (.property text)
  | some name =>
    match params.lookup name with
    | none => .error (.parameterMissing name)
    | some raw =>
      match Text.integer? raw with
      | some id => .ok (.identifier id)
      | none => .error (.parameterNotInteger name raw)

def segments (template : String) : List String :=
  (Text.split '/' template).filter fun s => !s.isEmpty

def ofTemplate (template : String) (params : Parameters) : Except RequestError Locator :=
  (segments template).mapM (segment params)

def id? : Segment → Option Int
  | .identifier id => some id
  | .property _ => none

/-- The identifier of the innermost resource. -/
def innermostId? (l : Locator) : Option Int := l.reverse.findSome? id?

end Locator

end SchemaRoutes
