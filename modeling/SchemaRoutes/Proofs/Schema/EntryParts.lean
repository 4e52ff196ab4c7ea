import SchemaRoutes.Proofs.Schema.Keywords

/-! # The parts of an entry

Whatever is reached in an entry is the entry of a sub-schema, a choice between such an entry and a
link, a link, or one of the single types that a list of types was taken apart into. All of these are
in the OpenAPI 3.0 form and free of what is meant for the compiler.
-/

namespace SchemaRoutes

open CatalogEntry

namespace CatalogEntry

variable {node : Members}

/-- A choice of several types is the only thing that is new in a slot. -/
theorem get?_adapt_of_keyword (hn : node.keys.Nodup) {k : String × Layout}
    (hk : k ∈ Slot.keywords) {value : Json} (hv : (adapt node).get? k.1 = some value) :
    node.get? k.1 = some value ∨ k = ("anyOf", .branches) ∧ ∃ types,
      node.get? "type" = some (.arr types) ∧
        value = .arr ((namedTypes types).map fun t => .obj [("type", t)]) := by
  have hcases : ∀ k ∈ Slot.keywords, k.1 ∉ adaptedKeywords ∨ k = ("patternProperties", .entries) ∨
      k = ("anyOf", .branches) := by decide
  rcases hcases k hk with h | rfl | rfl
  · rw [get?_adapt h] at hv
    exact .inl hv
  · rw [get?_adapt_patternProperties hn] at hv
    cases hv
  · by_cases hlist : ∃ types, node.get? "type" = some (.arr types)
    · obtain ⟨types, ht⟩ := hlist
      rw [get?_adapt_of_list ht (by decide)] at hv
      rcases hnamed : namedTypes types with _ | ⟨t, _ | ⟨t', rest⟩⟩
      · rw [hnamed, get?_withTypes_nil_anyOf] at hv
        exact .inl hv
      · rw [hnamed, get?_withTypes_singleton_anyOf] at hv
        exact .inl hv
      · rw [hnamed, get?_withTypes_several_anyOf, ← hnamed] at hv
        exact .inr ⟨rfl, types, ht, (Option.some.inj hv).symm⟩
    · rw [get?_adapt_of_not_list (not_exists.mp hlist) (by decide)] at hv
      exact .inl hv

end CatalogEntry

namespace Schema

variable {s t : Schema} {ms : Members}

/-- The schema itself, and every schema in a slot of one that it holds. -/
inductive Holds (s : Schema) : Schema → Prop where
  | here : Holds s s
  | child {ms : Members} {c : Slot × Json} : Holds s (.obj ms) → c ∈ ms.children → Holds s c.2

theorem Holds.trans {u : Schema} (hst : s.Holds t) (htu : t.Holds u) : s.Holds u := by
  induction htu with
  | here => exact hst
  | child _ hc ih => exact ih.child hc

theorem Holds.wellFormed (ht : s.Holds t) (h : s.WellFormed) : t.WellFormed := by
  induction ht with
  | here => exact h
  | child _ hc ih => exact ih.of_mem_children hc

def ListsTypeNames (s : Schema) : Prop :=
  ∀ types, s.get? "type" = some (.arr types) → ∀ t ∈ types, ∃ name, t = .str name

/-- Whatever is reached in the entry of a schema: from an object through its slots, and from the
entry of a schema with `patternProperties` through those under their new name. -/
inductive EntryPart (s : Schema) : Json → Prop where
  | entry : EntryPart s s.catalogEntry
  | slot {ms : Members} {c : Slot × Json} :
      EntryPart s (.obj ms) → c ∈ ms.children → EntryPart s c.2
  | pattern {t : Schema} {patterns : Json} {ms : Members} {m : String × Json} :
      s.Holds t → t.get? "patternProperties" = some patterns → EntryPart s t.catalogEntry →
      t.catalogEntry.get? "x-patternProperties" = some (.obj ms) → m ∈ ms → EntryPart s m.2

/-- Where a part of an entry comes from. -/
inductive Origin (s : Schema) : Json → Prop where
  | entry {t : Schema} : s.Holds t → Origin s t.catalogEntry
  | choice {t : Schema} : s.Holds t → Origin s (orLink t.catalogEntry)
  | link : Origin s (.obj [("type", .str "string"), ("format", .str "uri")])
  | type (name : String) : Origin s (.obj [("type", .str name)])

theorem Origin.embedded (ht : s.Holds t) (slot : Slot) : Origin s (t.embedded slot) := by
  unfold Schema.embedded
  split
  · exact .choice ht
  · exact .entry ht

theorem exists_embedded_obj (slot : Slot) (ms : Members) :
    ∃ ns : Members, embedded slot (.obj ms) = .obj ns := by
  unfold embedded
  split
  · exact ⟨_, rfl⟩
  · exact ⟨_, catalogEntry_obj_eq_adapt ms⟩

/-- In the slots of an entry stand the entries of what stood there, and single types. -/
theorem mem_children_adapt (h : (Json.obj ms).WellFormed) {c : Slot × Json}
    (hc : c ∈ (adapt (prepared ms)).children) :
    (∃ x, (c.1, x) ∈ ms.children ∧ c.2 = embedded c.1 x) ∨
      ∃ types, ms.get? "type" = some (.arr types) ∧ ∃ t ∈ types, c.2 = .obj [("type", t)] := by
  have hn : ms.keys.Nodup := h.keys_nodup
  obtain ⟨k, hk, value, hv, hu⟩ := Members.mem_children_iff.mp hc
  rcases get?_adapt_of_keyword (nodup_keys_prepared hn) hk hv with hv | ⟨rfl, types, ht, rfl⟩
  · rw [get?_prepared_of_keyword h hk] at hv
    obtain ⟨before, hbefore, rfl⟩ := Option.map_eq_some_iff.mp hv
    obtain ⟨x, hx, he⟩ := Slot.mem_under_mapUnder exists_embedded_obj hu
    exact .inl ⟨x, Members.mem_children_iff.mpr ⟨k, hk, before, hbefore, hx⟩, he⟩
  · rw [get?_prepared (by decide) (by decide)] at ht
    obtain ⟨t, hmem, he⟩ := List.mem_map.mp (Slot.mem_of_mem_numbered hu)
    exact .inr ⟨types, ht, t, (List.mem_filter.mp hmem).1, he.symm⟩

theorem members_catalogEntry (s : Schema) (hs : s.catalogEntry = .obj ms) :
    ∃ ns, s = .obj ns ∧ ms = adapt (prepared ns) := by
  cases s with
  | obj ns =>
    rw [catalogEntry_obj_eq_adapt] at hs
    exact ⟨ns, rfl, (Json.obj.inj hs).symm⟩
  | _ => cases hs

theorem xPatternProperties_catalogEntry {ns : Members} {patterns : Json}
    (h : (Json.obj ns).WellFormed) (hp : ns.get? "patternProperties" = some patterns)
    (hms : (catalogEntry (.obj ns)).get? "x-patternProperties" = some (.obj ms)) :
    ∃ before : Members, patterns = .obj before ∧
      ms = before.map fun m => (m.1, embedded (.entry "patternProperties" m.1) m.2) := by
  have hk : ("patternProperties", Layout.entries) ∈ Slot.keywords := by decide
  have hprepared : (prepared ns).get? "patternProperties" =
      some (Slot.mapUnder embedded "patternProperties" .entries patterns) := by
    rw [get?_prepared_of_keyword h hk, hp, Option.map_some]
  rw [catalogEntry_obj_eq_adapt, Json.get?, Json.members,
    get?_adapt_xPatternProperties hprepared] at hms
  cases patterns with
  | obj before => exact ⟨before, rfl, (Json.obj.inj (Option.some.inj hms)).symm⟩
  | _ => cases hms

variable (h : s.WellFormed) (hnames : ∀ t, s.Holds t → t.ListsTypeNames)

include h hnames

theorem Origin.child {e : Json} (ho : Origin s e) (he : e = .obj ms) {c : Slot × Json}
    (hc : c ∈ ms.children) : Origin s c.2 := by
  cases ho with
  | @entry t ht =>
    obtain ⟨ns, rfl, hms⟩ := members_catalogEntry t he
    rw [hms] at hc
    rcases mem_children_adapt (ht.wellFormed h) hc with
      ⟨x, hx, hshown⟩ | ⟨types, htypes, u, hu, hshown⟩
    · rw [hshown]
      exact .embedded (ht.child hx) c.1
    · obtain ⟨name, rfl⟩ := hnames _ ht types htypes u hu
      rw [hshown]
      exact .type name
  | @choice t ht =>
    cases he
    have hchildren (entry other : Json) : Members.children [("oneOf", .arr [entry, other])] =
      [(.branch "oneOf" 0, entry), (.branch "oneOf" 1, other)] := rfl
    rw [hchildren] at hc
    rcases hc with _ | ⟨_, _ | ⟨_, hc⟩⟩
    · exact .entry ht
    · exact .link
    · cases hc
  | link =>
    cases he
    cases hc
  | type name =>
    cases he
    cases hc

theorem EntryPart.origin {e : Json} (hp : EntryPart s e) : Origin s e := by
  induction hp with
  | entry => exact .entry .here
  | slot _ hc ih => exact ih.child h hnames rfl hc
  | @pattern t patterns ms m ht hpatterns _ hms hm =>
    obtain ⟨ns, rfl⟩ := exists_obj_of_get? hpatterns
    obtain ⟨before, rfl, rfl⟩ := xPatternProperties_catalogEntry (ht.wellFormed h) hpatterns hms
    obtain ⟨x, hx, rfl⟩ := List.mem_map.mp hm
    have hk : ("patternProperties", Layout.entries) ∈ Slot.keywords := by decide
    have hchild : (Slot.entry "patternProperties" x.1, x.2) ∈ Members.children ns :=
      Members.mem_children_iff.mpr ⟨_, hk, _, hpatterns, List.mem_map_of_mem hx⟩
    exact Origin.embedded (t := x.2) (ht.child hchild) (.entry "patternProperties" x.1)

omit h hnames

structure IsShaped (node : Members) : Prop where
  absent : ∀ key ∈ ["$id", "$schema", "default", "x-rest-controller", "x-rest-blank-object",
    "const", "examples", "patternProperties"], key ∉ node.keys
  type : ∀ types, node.get? "type" ≠ some (.arr types)
  bounds : ∀ key ∈ ["exclusiveMinimum", "exclusiveMaximum"], ∀ limit,
    node.get? key ≠ some (.num limit)

theorem get?_adapt_type_ne_list {node : Members} (hn : node.keys.Nodup)
    (hnames : ListsTypeNames (.obj node)) (types : List Json) :
    (adapt node).get? "type" ≠ some (.arr types) := by
  by_cases hlist : ∃ types, node.get? "type" = some (.arr types)
  · obtain ⟨listed, ht⟩ := hlist
    rw [get?_adapt_of_list ht (by decide)]
    rcases hnamed : namedTypes listed with _ | ⟨t, _ | ⟨t', rest⟩⟩
    · simp [get?_withTypes_nil_type hn]
    · have hmem : t ∈ namedTypes listed := by simp [hnamed]
      obtain ⟨name, rfl⟩ := hnames listed ht t (List.mem_filter.mp hmem).1
      simp
    · simp [get?_withTypes_several_type hn]
  · rw [get?_adapt_of_not_list (not_exists.mp hlist) (by decide)]
    exact fun h => hlist ⟨types, h⟩

theorem isShaped_adapt (hn : ms.keys.Nodup) (hnames : ListsTypeNames (.obj ms)) :
    IsShaped (adapt (prepared ms)) where
  absent key hkey := by
    have hn' := nodup_keys_prepared hn
    rw [← Members.get?_eq_none_iff]
    have hcases : ∀ key ∈ ["$id", "$schema", "default", "x-rest-controller",
        "x-rest-blank-object", "const", "examples", "patternProperties"],
        (key ∈ compilerKeywords ∧ key ∉ adaptedKeywords) ∨ key = "const" ∨ key = "examples" ∨
          key = "patternProperties" := by decide
    rcases hcases key hkey with ⟨hdropped, hkept⟩ | rfl | rfl | rfl
    · rw [get?_adapt hkept, get?_prepared_of_mem hn hdropped]
    · exact get?_adapt_const hn'
    · exact get?_adapt_examples hn'
    · exact get?_adapt_patternProperties hn'
  type := by
    have hsame : (prepared ms).get? "type" = ms.get? "type" := get?_prepared (by decide) (by decide)
    refine get?_adapt_type_ne_list (nodup_keys_prepared hn) fun types ht => hnames types ?_
    rw [← ht]
    exact hsame.symm
  bounds key hkey limit := by
    have hbounds : ∀ key ∈ ["exclusiveMinimum", "exclusiveMaximum"],
        ∃ bound, (key, bound) ∈ boundKeywords := by
      simp [boundKeywords]
    obtain ⟨bound, hb⟩ := hbounds key hkey
    rw [get?_adapt_exclusive hb]
    cases (prepared ms).get? key with
    | none => simp
    | some value => cases value <;> simp [flagged]

theorem isShaped_choice (entry other : Json) : IsShaped [("oneOf", .arr [entry, other])] := by
  constructor <;> simp [Members.get?_cons]

theorem isShaped_link : IsShaped [("type", .str "string"), ("format", .str "uri")] := by
  constructor <;> simp [Members.get?_cons]

theorem isShaped_type (name : String) : IsShaped [("type", .str name)] := by
  constructor <;> simp [Members.get?_cons]

/-- Whatever object is reached in an entry is without what is meant for the compiler, and in the
OpenAPI 3.0 form, provided that the lists of types in the schema hold nothing but names. -/
theorem isShaped_of_entryPart (h : s.WellFormed) (hnames : ∀ t, s.Holds t → t.ListsTypeNames)
    (hp : EntryPart s (.obj ms)) : IsShaped ms := by
  have ho := hp.origin h hnames
  generalize he : Json.obj ms = e at ho
  cases ho with
  | @entry t ht =>
    obtain ⟨ns, rfl, hms⟩ := members_catalogEntry t he.symm
    rw [hms]
    exact isShaped_adapt (ht.wellFormed h).keys_nodup (hnames _ ht)
  | choice ht =>
    cases he
    exact isShaped_choice _ _
  | link =>
    cases he
    exact isShaped_link
  | type name =>
    cases he
    exact isShaped_type name

def labels : Schema :=
  .obj [("patternProperties", .obj [("^x-", .obj [("$id", .str "label"),
    ("type", .arr [.str "string", .str "integer"]), ("const", .str "new")])])]

theorem labels_holds {t : Schema} (ht : labels.Holds t) : t.ListsTypeNames := by
  have hparts : t = labels ∨ t = .obj [("$id", .str "label"),
      ("type", .arr [.str "string", .str "integer"]), ("const", .str "new")] := by
    induction ht with
    | here => exact .inl rfl
    | @child ms c _ hc ih =>
      rcases ih with he | he
      · cases he
        exact .inr (congrArg Prod.snd (List.mem_singleton.mp hc))
      · cases he
        cases hc
  rintro types htypes t ht
  rcases hparts with rfl | rfl
  · cases htypes
  · cases htypes
    simp only [List.mem_cons, List.not_mem_nil, or_false] at ht
    rcases ht with rfl | rfl
    · exact ⟨_, rfl⟩
    · exact ⟨_, rfl⟩

theorem isShaped_label : EntryPart labels (.obj [("type", .str "integer")]) ∧
    IsShaped [("type", .str "integer")] := by
  have hentry : labels.catalogEntry.get? "x-patternProperties" = some (.obj [("^x-", .obj [
      ("anyOf", .arr [.obj [("type", .str "string")], .obj [("type", .str "integer")]]),
      ("enum", .arr [.str "new"])])]) := by decide +kernel
  have hlabel : EntryPart labels (.obj [
      ("anyOf", .arr [.obj [("type", .str "string")], .obj [("type", .str "integer")]]),
      ("enum", .arr [.str "new"])]) := .pattern .here rfl .entry hentry (.head _)
  have hpart : EntryPart labels (.obj [("type", .str "integer")]) :=
    hlabel.slot (c := (.branch "anyOf" 1, _)) (.tail _ (.head _))
  have hwf : labels.WellFormed := by
    simp [labels, Json.WellFormed, Json.WellFormedMembers, Json.WellFormedItems]
  exact ⟨hpart, isShaped_of_entryPart hwf (fun _ => labels_holds) hpart⟩

end Schema

end SchemaRoutes
