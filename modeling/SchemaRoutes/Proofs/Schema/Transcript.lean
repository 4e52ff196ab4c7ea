import SchemaRoutes.Proofs.Schema.Keywords

/-! # Entries transcribed

An entry can be had without a traversal, by recursion on the members of a node: each keyword says
where in its value schemas stand, and they are transcribed in place. What a traversal empties, it
fills again, so nothing depends on the slots being empty when a node is left.
-/

namespace SchemaRoutes

open CatalogEntry

namespace Schema

/-- The keywords of a node without those for the compiler, in their OpenAPI 3.0 form. -/
def finished (node : Members) : Json :=
  .obj (adapt (node.filter fun m =>
    m.1 ∉ ["$id", "$schema", "default", "x-rest-controller", "x-rest-blank-object"]))

/-- A sub-schema that may be given by link becomes a choice. -/
def offered (s : Schema) (entry : Json) : Json :=
  if s.IsNamed ∧ s.IsLinkType then orLink entry else entry

mutual

/-- The entry of a schema, by recursion on its members. -/
def transcript : Schema → Json
  | .obj ms => finished (transcriptKeywords ms)
  | s => s
termination_by structural s => s

def transcriptKeywords : Members → Members
  | [] => []
  | (keyword, value) :: ms =>
    (keyword, transcriptUnder keyword value) :: transcriptKeywords ms
termination_by structural ms => ms

def transcriptUnder (keyword : String) : Json → Json
  | .obj ms =>
    if keyword = "properties" then .obj (transcriptProperties ms)
    else if keyword ∈ ["patternProperties", "definitions", "$defs", "dependencies"] then
      .obj (transcriptMembers ms)
    else if keyword = "items" then offered (.obj ms) (finished (transcriptKeywords ms))
    else if keyword ∈ ["additionalProperties", "additionalItems", "not"] then
      finished (transcriptKeywords ms)
    else .obj ms
  | .arr xs =>
    if keyword ∈ ["items", "allOf", "anyOf", "oneOf"] then .arr (transcriptItems xs) else .arr xs
  | value => value
termination_by structural value => value

def transcriptProperties : Members → Members
  | [] => []
  | (name, s) :: ms => (name, offered s (transcript s)) :: transcriptProperties ms
termination_by structural ms => ms

/-- Members that are no objects stay as they are. -/
def transcriptMembers : Members → Members
  | [] => []
  | (name, s) :: ms => (name, transcript s) :: transcriptMembers ms
termination_by structural ms => ms

def transcriptItems : List Json → List Json
  | [] => []
  | s :: xs => transcript s :: transcriptItems xs
termination_by structural xs => xs

end

def transcriptIn (slot : Slot) (s : Schema) : Json :=
  if mayLink slot = true then offered s s.transcript else s.transcript

theorem transcriptProperties_eq (ms : Members) :
    transcriptProperties ms = ms.map fun m => (m.1, transcriptIn (.property m.1) m.2) := by
  induction ms with
  | nil => rfl
  | cons m ms ih => simp [transcriptProperties, ih, transcriptIn, mayLink]

theorem transcriptMembers_eq (ms : Members) :
    transcriptMembers ms = ms.map fun m => (m.1, transcript m.2) := by
  induction ms with
  | nil => rfl
  | cons m ms ih => simp [transcriptMembers, ih]

theorem transcriptItems_eq (xs : List Json) : transcriptItems xs = xs.map transcript := by
  induction xs with
  | nil => rfl
  | cons x xs ih => simp [transcriptItems, ih]

theorem transcript_of_not_isObject {s : Schema} (h : ¬ s.isObject = true) : s.transcript = s := by
  cases s with
  | obj ms => exact absurd rfl h
  | _ => rfl

theorem mapUnder_properties (keyword : String) (ms : Members) :
    Slot.mapUnder transcriptIn keyword .properties (.obj ms) = .obj (transcriptProperties ms) := by
  rw [Slot.mapUnder, transcriptProperties_eq]

theorem mapUnder_entries (keyword : String) (ms : Members) :
    Slot.mapUnder transcriptIn keyword .entries (.obj ms) = .obj (transcriptMembers ms) := by
  simp [Slot.mapUnder, transcriptMembers_eq, transcriptIn, mayLink]

theorem mapUnder_objectEntries (keyword : String) (ms : Members) :
    Slot.mapUnder transcriptIn keyword .objectEntries (.obj ms) = .obj (transcriptMembers ms) := by
  simp only [Slot.mapUnder, transcriptMembers_eq, Json.obj.injEq]
  refine List.map_congr_left fun m _ => ?_
  split
  · rfl
  · next ho => rw [transcript_of_not_isObject ho]

theorem mapUnder_branches (keyword : String) (xs : List Json) :
    Slot.mapUnder transcriptIn keyword .branches (.arr xs) = .arr (transcriptItems xs) := by
  have hs (i : ℕ) (x : Schema) : transcriptIn (.branch keyword i) x = x.transcript := rfl
  rw [Slot.mapUnder, transcriptItems_eq, Slot.map_numbered hs]

theorem mapUnder_tuple (keyword : String) (xs : List Json) :
    Slot.mapUnder transcriptIn keyword .items (.arr xs) = .arr (transcriptItems xs) := by
  have hs (i : ℕ) (x : Schema) : transcriptIn (.tupleItem i) x = x.transcript := rfl
  rw [Slot.mapUnder, transcriptItems_eq, Slot.map_numbered hs]

/-- The keywords named in the transcript are those whose slots are filled. -/
theorem transcriptUnder_eq (value : Json) : ∀ k ∈ Slot.keywords,
    transcriptUnder k.1 value = Slot.mapUnder transcriptIn k.1 k.2 value := by
  simp only [Slot.keywords, List.forall_mem_cons]
  cases value with
  | obj ms =>
    have hentries (keyword : String) := (mapUnder_entries keyword ms).symm
    exact ⟨(mapUnder_properties _ ms).symm, hentries _, hentries _, hentries _,
      (mapUnder_objectEntries _ ms).symm, rfl, rfl, rfl, rfl, rfl, rfl, rfl, nofun⟩
  | arr xs =>
    have hbranches (keyword : String) := (mapUnder_branches keyword xs).symm
    exact ⟨rfl, rfl, rfl, rfl, rfl, (mapUnder_tuple _ xs).symm, rfl, rfl, rfl,
      hbranches _, hbranches _, hbranches _, nofun⟩
  | _ => exact ⟨rfl, rfl, rfl, rfl, rfl, rfl, rfl, rfl, rfl, rfl, rfl, rfl, nofun⟩

theorem transcriptUnder_of_lookup_eq_none {keyword : String}
    (h : Slot.keywords.lookup keyword = none) (value : Json) :
    transcriptUnder keyword value = value := by
  have hne : ∀ k ∈ Slot.keywords, keyword ≠ k.1 := by simpa using List.lookup_eq_none_iff.mp h
  simp only [Slot.keywords, List.forall_mem_cons] at hne
  cases value <;> simp [transcriptUnder, hne]

theorem transcriptKeywords_eq (ms : Members) :
    transcriptKeywords ms = ms.mapSlots transcriptIn := by
  induction ms with
  | nil => rfl
  | cons m ms ih =>
    obtain ⟨keyword, value⟩ := m
    rw [transcriptKeywords, ih, Members.mapSlots, Members.mapSlots, List.map_cons]
    congr 2
    cases hl : Slot.keywords.lookup keyword with
    | none => exact transcriptUnder_of_lookup_eq_none hl value
    | some layout => exact transcriptUnder_eq value _ (Slot.mem_keywords_of_lookup hl)

theorem transcript_obj (ms : Members) :
    transcript (.obj ms) = finished (ms.mapSlots transcriptIn) := by
  rw [transcript, transcriptKeywords_eq]

theorem embedded_eq (slot : Slot) (s : Schema) :
    s.embedded slot = if mayLink slot = true then offered s s.catalogEntry else s.catalogEntry := by
  simp only [embedded, offered, ← isLinkable_iff_isNamed]
  cases mayLink slot <;> simp

/-- The entry of a schema is its transcript. -/
theorem catalogEntry_eq_transcript {s : Schema} (h : s.WellFormed) :
    s.catalogEntry = s.transcript := by
  -- Children stand deeper in slots of any layout, so the induction is on the depth.
  induction hd : s.depth using Nat.strong_induction_on generalizing s with
  | _ d ih =>
    subst hd
    cases s with
    | obj ms =>
      have hn : (Members.keys ms).Nodup := h.keys_nodup
      have hchildren : ∀ c ∈ Members.children ms, embedded c.1 c.2 = transcriptIn c.1 c.2 := by
        intro c hc
        rw [embedded_eq, ih _ (Members.depth_lt_of_mem_children hc) (h.of_mem_children hc) rfl,
          transcriptIn]
      rw [catalogEntry_obj, Members.refilled_eq_mapSlots h, Members.mapSlots_congr hn hchildren,
        withoutCompilerKeywords_eq_filter (by simpa using hn), transcript_obj]
      rfl
    | _ => rfl

def library : Schema :=
  .obj [("$id", .str "library"), ("title", .str "Library"),
    ("properties", .obj [
      ("books", .obj [("type", .str "array"), ("title", .str "Books"),
        ("items", .obj [("$id", .str "book"), ("default", .null)])]),
      ("owner", .obj [("title", .str "Person"), ("type", .arr [.str "object", .str "null"])]),
      ("place", .obj [("items", .arr [.obj [("title", .str "Room")], .str "row"])])]),
    ("definitions", .obj [("shelf", .obj [("title", .str "Shelf"), ("const", .num (.int 1))])]),
    ("dependencies", .obj [("books", .arr [.str "owner"]),
      ("owner", .obj [("$id", .str "owned"), ("required", .arr [.str "place"])])]),
    ("patternProperties", .obj [("^x-", .obj [("title", .str "Remark"), ("default", .null)])]),
    ("not", .obj [("title", .str "Lost"), ("default", .null)]),
    ("allOf", .arr [.obj [("title", .str "Open"), ("examples", .arr [.null])]]),
    ("anyOf", .arr [.obj [("$id", .str "lent"),
      ("properties", .obj [("reader", .obj [("title", .str "Reader")])])], .bool true]),
    ("oneOf", .arr [.obj [("exclusiveMinimum", .num (.int 0))]])]

theorem catalogEntry_library : library.WellFormed ∧
    library.catalogEntry = .obj [("title", .str "Library"),
      ("properties", .obj [
        ("books", .obj [("type", .str "array"), ("title", .str "Books"),
          ("items", .obj [("oneOf", .arr [.obj [],
            .obj [("type", .str "string"), ("format", .str "uri")]])])]),
        ("owner", .obj [("title", .str "Person"), ("type", .str "object"),
          ("nullable", .bool true)]),
        ("place", .obj [("items", .arr [.obj [("title", .str "Room")], .str "row"])])]),
      ("definitions", .obj [
        ("shelf", .obj [("title", .str "Shelf"), ("enum", .arr [.num (.int 1)])])]),
      ("dependencies", .obj [("books", .arr [.str "owner"]),
        ("owner", .obj [("required", .arr [.str "place"])])]),
      ("not", .obj [("title", .str "Lost")]),
      ("allOf", .arr [.obj [("title", .str "Open"), ("example", .null)]]),
      ("anyOf", .arr [.obj [("properties", .obj [("reader", .obj [("oneOf", .arr [
          .obj [("title", .str "Reader")],
          .obj [("type", .str "string"), ("format", .str "uri")]])])])], .bool true]),
      ("oneOf", .arr [.obj [("exclusiveMinimum", .bool true), ("minimum", .num (.int 0))]]),
      ("x-patternProperties", .obj [("^x-", .obj [("title", .str "Remark")])])] := by
  have hwf : library.WellFormed := by
    simp [library, Json.WellFormed, Json.WellFormedMembers, Json.WellFormedItems, Number.WellFormed]
  refine ⟨hwf, ?_⟩
  rw [catalogEntry_eq_transcript hwf]
  decide +kernel

end Schema

end SchemaRoutes
