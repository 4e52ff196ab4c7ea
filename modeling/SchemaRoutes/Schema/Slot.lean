import SchemaRoutes.Schema.Kind

/-! # Slots

The places of a schema node that hold sub-schemas, in the order in which they are visited. A node
can be emptied, which leaves `null` in every slot, and filled again slot by slot.
-/

namespace SchemaRoutes

inductive Slot where
  | property (name : String)
  /-- A member of another keyword that maps names to schemas. -/
  | entry (keyword name : String)
  | items
  | tupleItem (index : Nat)
  | single (keyword : String)
  | branch (keyword : String) (index : Nat)
  deriving DecidableEq, Repr

/-- How the value of a keyword holds sub-schemas. -/
inductive Layout where
  | properties
  | entries
  /-- Only members that are objects; others are lists of names. -/
  | objectEntries
  | items
  | single
  | branches
  deriving DecidableEq, Repr

namespace Slot

/-- The keywords with sub-schemas, in visiting order. -/
def keywords : List (String × Layout) :=
  [("properties", .properties), ("patternProperties", .entries), ("definitions", .entries),
    ("$defs", .entries), ("dependencies", .objectEntries), ("items", .items),
    ("additionalProperties", .single), ("additionalItems", .single), ("not", .single),
    ("allOf", .branches), ("anyOf", .branches), ("oneOf", .branches)]

def numbered (slot : Nat → Slot) (start : Nat) : List Json → List (Slot × Json)
  | [] => []
  | x :: xs => (slot start, x) :: numbered slot (start + 1) xs

/-- The slots in the value of a keyword. -/
def under (keyword : String) : Layout → Json → List (Slot × Json)
  | .properties, .obj ms => ms.map fun m => (property m.1, m.2)
  | .entries, .obj ms => ms.map fun m => (entry keyword m.1, m.2)
  | .objectEntries, .obj ms =>
    (ms.filter fun m => m.2.isObject).map fun m => (entry keyword m.1, m.2)
  | .items, .obj ms => [(items, .obj ms)]
  | .items, .arr xs => numbered tupleItem 0 xs
  | .single, .obj ms => [(single keyword, .obj ms)]
  | .branches, .arr xs => numbered (branch keyword) 0 xs
  | _, _ => []

/-- The value of a keyword with every slot emptied. -/
def emptyUnder : Layout → Json → Json
  | .properties, .obj ms | .entries, .obj ms => .obj (ms.map fun m => (m.1, .null))
  | .objectEntries, .obj ms =>
    .obj (ms.map fun m => (m.1, if m.2.isObject then .null else m.2))
  | .items, .obj _ | .single, .obj _ => .null
  | .items, .arr xs | .branches, .arr xs => .arr (xs.map fun _ => .null)
  | _, value => value

end Slot

namespace Members

/-- The sub-schemas of a node with their slots, in visiting order. -/
def children (node : Members) : List (Slot × Json) :=
  Slot.keywords.flatMap fun (keyword, layout) =>
    match node.get? keyword with
    | some value => Slot.under keyword layout value
    | none => []

/-- The node with `null` in every slot. -/
def emptied (node : Members) : Members :=
  node.map fun (key, value) =>
    match Slot.keywords.lookup key with
    | some layout => (key, Slot.emptyUnder layout value)
    | none => (key, value)

end Members

namespace Json

/-- Sets a member that is there. -/
def fillMember (name : String) (child : Json) : Json → Json
  | obj ms => obj (Members.replace ms name fun _ => child)
  | j => j

/-- Sets an array element that is there. -/
def fillItem (index : Nat) (child : Json) : Json → Json
  | arr xs => arr (xs.set index child)
  | j => j

end Json

/-- Puts a value into a slot; where the node has no such place, nothing changes. -/
def Members.fill (node : Members) (slot : Slot) (child : Json) : Members :=
  match slot with
  | .property name => node.replace "properties" (Json.fillMember name child)
  | .entry keyword name => node.replace keyword (Json.fillMember name child)
  | .items => node.replace "items" fun _ => child
  | .tupleItem index => node.replace "items" (Json.fillItem index child)
  | .single keyword => node.replace keyword fun _ => child
  | .branch keyword index => node.replace keyword (Json.fillItem index child)

def Members.fillAll (node : Members) (children : List (Slot × Json)) : Members :=
  children.foldl (fun node c => node.fill c.1 c.2) node

namespace Json

theorem depth_le_of_mem_items {x : Json} {xs : List Json} (h : x ∈ xs) :
    x.depth ≤ depthItems xs := by
  induction h with
  | head => simp only [depthItems]; omega
  | tail _ _ ih => simp only [depthItems]; omega

theorem depth_le_of_mem_members {k : String} {x : Json} {ms : Members} (h : (k, x) ∈ ms) :
    x.depth ≤ depthMembers ms := by
  induction ms with
  | nil => cases h
  | cons m ms ih =>
    obtain ⟨l, y⟩ := m
    simp only [depthMembers]
    rcases List.mem_cons.mp h with h | h
    · cases h; omega
    · have := ih h; omega

theorem depth_le_of_get? {ms : Members} {k : String} {x : Json} (h : ms.get? k = some x) :
    x.depth ≤ depthMembers ms := by
  induction ms with
  | nil => cases h
  | cons m ms ih =>
    obtain ⟨l, y⟩ := m
    simp only [Members.get?, List.lookup_cons] at h
    simp only [depthMembers]
    split at h
    · cases h; omega
    · have := ih h; omega

end Json

namespace Slot

theorem mem_of_mem_numbered {f : Nat → Slot} {n : Nat} {xs : List Json} {c : Slot × Json}
    (h : c ∈ numbered f n xs) : c.2 ∈ xs := by
  induction xs generalizing n with
  | nil => cases h
  | cons x xs ih =>
    rcases List.mem_cons.mp h with h | h
    · subst h; simp
    · exact List.mem_cons_of_mem _ (ih h)

theorem depth_le_of_mem_under {keyword : String} {layout : Layout} {value : Json}
    {c : Slot × Json} (h : c ∈ under keyword layout value) : c.2.depth ≤ value.depth := by
  unfold under at h
  split at h
  case h_1 ms | h_2 ms =>
    obtain ⟨m, hm, rfl⟩ := List.mem_map.mp h
    exact Nat.le_succ_of_le (Json.depth_le_of_mem_members hm)
  case h_3 ms =>
    obtain ⟨m, hm, rfl⟩ := List.mem_map.mp h
    exact Nat.le_succ_of_le (Json.depth_le_of_mem_members (List.mem_filter.mp hm).1)
  case h_4 ms | h_6 ms => cases List.mem_singleton.mp h; exact Nat.le_refl _
  case h_5 xs | h_7 xs =>
    exact Nat.le_succ_of_le (Json.depth_le_of_mem_items (mem_of_mem_numbered h))
  case h_8 => cases h

end Slot

theorem Members.depth_lt_of_mem_children {node : Members} {c : Slot × Json}
    (h : c ∈ node.children) : c.2.depth < (Json.obj node).depth := by
  obtain ⟨⟨keyword, layout⟩, _, h⟩ := List.mem_flatMap.mp h
  cases hv : node.get? keyword with
  | none => simp [hv] at h
  | some value =>
    simp only [hv] at h
    have := Slot.depth_le_of_mem_under h
    have := Json.depth_le_of_get? hv
    simp only [Json.depth]
    omega

end SchemaRoutes
