import SchemaRoutes.Schema.Grammar

/-! # Validity of schemas

A schema is valid if every keyword has the form that the draft of the whole schema asks for, if
every schema inside it has a known draft and a name that can be resolved, and if it can be
evaluated, each part by its own draft and with the vocabularies of the whole. Unknown keywords may
hold anything and nothing below them is looked at.
-/

namespace SchemaRoutes

namespace Validity

def isString (j : Json) : Bool := j.str?.isSome

def isStringWith (accepts : String → Bool) (j : Json) : Bool := j.str?.any accepts

def isBool (j : Json) : Bool := j.bool?.isSome

def isNumber : Json → Bool
  | .num _ => true
  | _ => false

def isList (j : Json) : Bool := j.items?.isSome

def isPositive : Json → Bool
  | .num (.int n) => decide (0 < n)
  | .num (.double d) => !d.negative && !d.isZero
  | _ => false

def isWhole (d : Double) : Bool := d.significand % Nat.pow 2 (-d.exponent).toNat == 0

def isCount (draft : Draft) : Json → Bool
  | .num (.int n) => decide (0 ≤ n)
  | .num (.double d) => draft != .draft04 && (!d.negative || d.isZero) && isWhole d
  | _ => false

def allDistinct : List Json → Bool
  | [] => true
  | x :: xs => !xs.any x.same && allDistinct xs

/-- Distinct names; the oldest draft wants at least one. -/
def areNames (draft : Draft) (xs : List Json) : Bool :=
  xs.all isString && allDistinct xs && !(draft == .draft04 && xs.isEmpty)

def typeNames : List String :=
  ["array", "boolean", "integer", "null", "number", "object", "string"]

def isTypeName (j : Json) : Bool := isStringWith typeNames.contains j

def isType : Json → Bool
  | .arr types => types.all isTypeName && allDistinct types && !types.isEmpty
  | j => isTypeName j

/-- An identifier has no number sign but a last one. -/
def isIdentifier (id : String) : Bool := !id.toList.dropLast.contains '#'

def isAnchor (draft : Draft) (name : String) : Bool :=
  let newest := draft == .draft202012
  match name.toList with
  | c :: cs =>
    (c.isAlpha || (newest && c == '_')) &&
      cs.all fun c => c.isAlphanum || "-._".toList.contains c || (!newest && c == ':')
  | [] => false

/-- In the oldest draft a schema is an object, and in later ones it may be a truth value. -/
def isTrivial (draft : Draft) (j : Json) : Bool := draft != .draft04 && isBool j

def since (draft first : Draft) (rule : Rule) : Rule :=
  if draft.isSince first then rule else .anything

def strings : Rule := .test isString

def subschema (draft : Draft) : Rule := .schema (isTrivial draft)

def names (draft : Draft) : Rule :=
  ⟨.test fun _ => false, .test (areNames draft), fun _ => false⟩

/-- What a keyword must hold, by the draft of the whole schema. -/
def form (draft : Draft) (keyword : String) : Rule :=
  match keyword with
  | "type" => .test isType
  | "enum" => .test isList
  | "required" => names draft
  | "minimum" | "maximum" => .test isNumber
  | "exclusiveMinimum" | "exclusiveMaximum" =>
    .test (if draft = .draft04 then isBool else isNumber)
  | "multipleOf" => .test isPositive
  | "minLength" | "maxLength" | "minItems" | "maxItems" | "minProperties" | "maxProperties" =>
    .test (isCount draft)
  | "minContains" | "maxContains" => since draft .draft201909 (.test (isCount draft))
  | "uniqueItems" => .test isBool
  | "title" | "description" | "pattern" | "format" => strings
  | "$comment" | "contentMediaType" | "contentEncoding" => since draft .draft07 strings
  | "readOnly" | "writeOnly" => since draft .draft07 (.test isBool)
  | "deprecated" => since draft .draft201909 (.test isBool)
  | "examples" => since draft .draft06 (.test isList)
  | "properties" | "patternProperties" | "definitions" => .byName (subschema draft)
  | "$defs" | "dependentSchemas" => since draft .draft201909 (.byName (subschema draft))
  | "dependencies" => .byName ⟨.schema, .test (areNames draft), isTrivial draft⟩
  | "dependentRequired" => since draft .draft201909 (.byName (names draft))
  | "allOf" | "anyOf" | "oneOf" => .listOf 1 (subschema draft)
  | "prefixItems" => since draft .draft202012 (.listOf 1 (subschema draft))
  | "not" => subschema draft
  | "additionalProperties" => .schema isBool
  | "additionalItems" => if draft = .draft202012 then .anything else .schema isBool
  | "items" =>
    if draft = .draft202012 then subschema draft
    else .schemaOrList 1 (subschema draft) (isTrivial draft)
  | "contains" | "propertyNames" => since draft .draft06 (subschema draft)
  | "if" | "then" | "else" => since draft .draft07 (subschema draft)
  | "unevaluatedItems" | "unevaluatedProperties" | "contentSchema" =>
    since draft .draft201909 (subschema draft)
  | "id" => if draft = .draft04 then strings else .anything
  | "$id" =>
    if draft.isSince .draft201909 then .test (isStringWith isIdentifier)
    else since draft .draft06 (.test (isStringWith isUriReference))
  | "$schema" =>
    if draft = .draft06 ∨ draft = .draft07 then .test (isStringWith isUri) else strings
  | "$ref" =>
    if draft.isSince .draft201909 then strings
    else since draft .draft06 (.test (isStringWith isUriReference))
  | "$anchor" => since draft .draft201909 (.test (isStringWith (isAnchor draft)))
  | "$recursiveAnchor" =>
    if draft = .draft201909 then .test isBool
    else since draft .draft202012 (.test (isStringWith (isAnchor draft)))
  | "$dynamicAnchor" => since draft .draft202012 (.test (isStringWith (isAnchor draft)))
  | "$recursiveRef" => since draft .draft201909 strings
  | "$dynamicRef" => since draft .draft202012 strings
  | "$vocabulary" => since draft .draft201909 (.byName (.test isBool))
  | _ => .anything

/-- In the oldest draft an exclusive bound is a flag on a bound that must be there. -/
def boundsComplete (draft : Draft) (ms : Members) : Bool :=
  draft != .draft04 ||
    ((!ms.has "exclusiveMinimum" || ms.has "minimum") &&
      (!ms.has "exclusiveMaximum" || ms.has "maximum"))

def part : Rule := .lenient (.schema isBool)

def parts : Rule := .lenient (.listOf 0 part)

def partsByName : Rule := .lenient (.byName part)

def partOrParts : Rule := .lenient (.schemaOrList 0 part isBool)

/-- Where a keyword holds schemas that may bear a draft or a name. -/
def nesting (draft : Draft) (keyword : String) : Rule :=
  match keyword with
  | "not" | "additionalProperties" => part
  | "additionalItems" => if draft = .draft202012 then .anything else part
  | "items" => if draft = .draft202012 then part else partOrParts
  | "allOf" | "anyOf" | "oneOf" => parts
  | "prefixItems" => since draft .draft202012 parts
  | "properties" | "patternProperties" | "definitions" => partsByName
  | "dependencies" => if draft.isSince .draft201909 then .anything else partsByName
  | "contains" | "propertyNames" => since draft .draft06 part
  | "if" | "then" | "else" => since draft .draft07 part
  | "unevaluatedItems" | "unevaluatedProperties" | "contentSchema" => since draft .draft201909 part
  | "$defs" | "dependentSchemas" => since draft .draft201909 partsByName
  | _ => .anything

/-- Whether a node is evaluated. The vocabularies are those of the whole schema, so where that has
none, a draft that needs them has no keywords. -/
def isEvaluated (whole draft : Draft) : Bool := whole.hasVocabularies || !draft.hasVocabularies

/-- What a keyword must hold to be evaluated, by the draft of its own node. -/
def evaluation (whole draft : Draft) (keyword : String) : Rule :=
  if !isEvaluated whole draft then .anything
  else
    match keyword with
    | "exclusiveMinimum" | "exclusiveMaximum" => since draft .draft06 (.test isNumber)
    | "minLength" | "maxLength" | "minItems" | "maxItems" | "minProperties" | "maxProperties" =>
      .test (isCount draft)
    | "contentMediaType" | "contentEncoding" =>
      if draft = .draft06 ∨ draft = .draft07 then strings else .anything
    | "dependentRequired" => since draft .draft201909 (.byName (names draft))
    | "dependentSchemas" => since draft .draft201909 (.byName (.schema isBool))
    | "prefixItems" => since draft .draft202012 (.listOf 0 (.schema isBool))
    | "contains" | "propertyNames" => since draft .draft06 (.schema isBool)
    | "if" | "then" | "else" => since draft .draft07 (.schema isBool)
    | "unevaluatedItems" | "unevaluatedProperties" => since draft .draft201909 (.schema isBool)
    | "$defs" | "definitions" | "contentSchema" => .anything
    | "items" => partOrParts
    | _ => nesting draft keyword

def grammars (whole : Draft) : List Grammar :=
  [⟨fun s ms => if boundsComplete s.draft ms then some s else none, form⟩,
    ⟨Scope.enter?, nesting⟩, ⟨Scope.enterLatest?, evaluation whole⟩]

end Validity

/-- Whether a schema can be used to check documents. -/
def Schema.isValid (s : Schema) : Bool :=
  (Scope.ofSchema? s).any fun scope =>
    (Validity.grammars scope.draft).all fun g => g.follows scope (.schema Validity.isBool) s

end SchemaRoutes
