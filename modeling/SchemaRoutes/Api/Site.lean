import SchemaRoutes.Schema.Kind
import SchemaRoutes.Api.Endpoint

/-! # Sites

The places of a schema that get endpoints. A member of `properties` that is an array with object
items leads to those items, one parameter deeper; any other member that holds members leads to
itself. An identified schema reached in this way is a resource: an item, or a collection and then
an item.
-/

namespace SchemaRoutes

/-- The way from the root of a schema. -/
structure Position where
  template : String
  parameters : List IdParameter
  steps : List TrailStep
  deriving DecidableEq, Repr

namespace Position

def root : Position := ⟨"", [], []⟩

def property (pos : Position) (name : String) : Position :=
  { pos with
    template := pos.template ++ "/" ++ name
    steps := pos.steps ++ [.property name] }

/-- One member of the collection here, described by the title of its schema. -/
def member (pos : Position) (title : Option String) : Position :=
  let parameter := IdParameter.nth pos.parameters.length title
  { template := pos.template ++ "/" ++ parameter.placeholder
    parameters := pos.parameters ++ [parameter]
    steps := pos.steps ++ [.item parameter.name] }

end Position

structure Site where
  position : Position
  kind : EndpointKind
  schema : Schema

namespace Schema

/-- The single schema of the items of an array. -/
def collectionItems? (s : Schema) : Option Schema :=
  if s.isList then
    match s.get? "items" with
    | some (.obj ms) => some (.obj ms)
    | _ => none
  else none

end Schema

namespace Site

/-- The item endpoint of an identified schema. -/
def ofItem (pos : Position) (s : Schema) : List Site :=
  if s.isIdentified then [⟨pos, .item, s⟩] else []

/-- The collection endpoint of identified items, and the endpoint of one of them. -/
def ofCollection (pos : Position) (s : Schema) : List Site :=
  if s.isIdentified then [⟨pos, .collection, s⟩, ⟨pos.member s.title?, .item, s⟩] else []

mutual

/-- The sites below a node, from its members. -/
def below (pos : Position) : Members → List Site
  | [] => []
  | (key, value) :: ms => if key == "properties" then belowProperties pos value else below pos ms
termination_by structural ms => ms

def belowProperties (pos : Position) : Json → List Site
  | .obj properties => belowEach pos properties
  | _ => []
termination_by structural j => j

def belowEach (pos : Position) : Members → List Site
  | [] => []
  | (name, p) :: ms => ofProperty (pos.property name) p ++ belowEach pos ms
termination_by structural ms => ms

/-- The sites of one property and below it. -/
def ofProperty (pos : Position) : Json → List Site
  | .obj ms =>
    if (Schema.collectionItems? (.obj ms)).isSome then belowItems pos ms
    else if Schema.holdsMembers (.obj ms) then ofItem pos (.obj ms) ++ below pos ms
    else []
  | _ => []
termination_by structural j => j

/-- The sites of a collection and below it, from the members of its array. -/
def belowItems (pos : Position) : Members → List Site
  | [] => []
  | (key, value) :: ms => if key == "items" then ofItems pos value else belowItems pos ms
termination_by structural ms => ms

def ofItems (pos : Position) : Json → List Site
  | .obj ms => ofCollection pos (.obj ms) ++ below (pos.member (Schema.title? (.obj ms))) ms
  | _ => []
termination_by structural j => j

end

/-- The sites of a whole schema; the root itself is none. -/
def all (schema : Schema) : List Site := below .root schema.members

theorem below_eq (pos : Position) (ms : Members) :
    below pos ms = belowEach pos ((Schema.properties? (.obj ms)).getD []) := by
  induction ms with
  | nil => rfl
  | cons m ms ih =>
    obtain ⟨key, value⟩ := m
    rw [below]
    by_cases h : key = "properties"
    · subst h
      cases value <;> simp [Schema.properties?, Json.get?, Json.members, Members.get?,
        belowProperties, belowEach]
    · have h' : ("properties" == key) = false := by simpa using fun e => h e.symm
      simp only [h, beq_iff_eq, if_false, ih, Schema.properties?, Json.get?, Json.members,
        Members.get?, List.lookup_cons, h']

end Site

end SchemaRoutes
