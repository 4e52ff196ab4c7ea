import SchemaRoutes.Schema.Kind
import SchemaRoutes.Text.UriReference

/-! # Drafts

The drafts of JSON Schema, how a node names the one it follows, and how it names itself.
-/

namespace SchemaRoutes

inductive Draft where
  | draft04 | draft06 | draft07 | draft201909 | draft202012
  deriving DecidableEq, Repr

namespace Draft

/-- Drafts in order of age. -/
def number : Draft → Nat
  | draft04 => 4
  | draft06 => 6
  | draft07 => 7
  | draft201909 => 8
  | draft202012 => 9

def isSince (draft first : Draft) : Bool := decide (first.number ≤ draft.number)

/-- Whether the keywords of a draft come from vocabularies. -/
def hasVocabularies (draft : Draft) : Bool := draft.isSince draft201909

def names : List (String × Draft) :=
  [("https://json-schema.org/draft/2020-12/schema", draft202012),
    ("https://json-schema.org/draft/2019-09/schema", draft201909),
    ("http://json-schema.org/draft-07/schema", draft07),
    ("http://json-schema.org/draft-06/schema", draft06),
    ("http://json-schema.org/draft-04/schema", draft04)]

/-- The draft of a name, which may end in number signs. -/
def ofName? (name : String) : Option Draft := names.lookup (Text.trimEnd '#' name)

/-- The draft of a node: the one it names, if that is known, or else the one around it. -/
def at? (around : Draft) (node : Members) : Option Draft :=
  match node.get? "$schema" with
  | some (.str name) => ofName? name
  | _ => some around

/-- The member `key` of a node unless it only names a place in its document, or gives way to a
reference. -/
def olderIdentifier? (key : String) (node : Members) : Option String :=
  match node.get? key with
  | some (.str id) => if node.has "$ref" || id.toList.head? == some '#' then none else some id
  | _ => none

/-- What a node is called, without number signs at the end. -/
def identifier? (draft : Draft) (node : Members) : Option String :=
  let id? :=
    match draft with
    | draft04 => olderIdentifier? "id" node
    | draft06 | draft07 => olderIdentifier? "$id" node
    | draft201909 | draft202012 => (node.get? "$id").bind Json.str?
  id?.map (Text.trimEnd '#')

end Draft

/-- The draft and the base URI that hold at a node. -/
structure Scope where
  draft : Draft
  base : BaseUri
  deriving DecidableEq, Repr

namespace Scope

/-- The scope of a node of a draft, if its identifier can be resolved. -/
def enterAs? (s : Scope) (draft : Draft) (node : Members) : Option Scope :=
  match draft.identifier? node with
  | some id => (s.base.resolve? id).map fun base => ⟨draft, base⟩
  | none => some ⟨draft, s.base⟩

/-- The scope of a node, if its draft is known and its identifier can be resolved. -/
def enter? (s : Scope) (node : Members) : Option Scope :=
  (s.draft.at? node).bind fun draft => s.enterAs? draft node

/-- The scope of a node, which is of the latest draft if its own is not known. -/
def enterLatest? (s : Scope) (node : Members) : Option Scope :=
  s.enterAs? ((s.draft.at? node).getD .draft202012) node

/-- The scope around a whole schema. Its base is its own identifier, and the latest draft holds
where it names none. -/
def ofSchema? (s : Schema) : Option Scope := enter? ⟨.draft202012, .plain⟩ s.members

end Scope

end SchemaRoutes
