import SchemaRoutes.Proofs.Schema.EntryParts
import SchemaRoutes.Schema.Validity

/-! # What an entry accepts

A list of types is taken apart into a choice, and a constant becomes the only value of an
enumeration. A schema may have a choice or an enumeration of its own, and then that one is gone. So
an entry accepts what the schema accepts, and besides whatever is kept out only by a keyword in
whose place another one has been put.
-/

namespace SchemaRoutes

open CatalogEntry

/-- How values are read. Drafts differ on whether `1.0` is an integer and equal to `1`. -/
structure Reading where
  equal : Json → Json → Prop
  isOf : Json → String → Prop
  null : ∀ {v}, isOf v "null" → v = .null

namespace Json

/-- The names of the types of a value; a number without a fraction is an integer, too. -/
def typeNames : Json → List String
  | null => ["null"]
  | bool _ => ["boolean"]
  | num (.int _) => ["integer", "number"]
  | num (.double d) => if Validity.isWhole d then ["integer", "number"] else ["number"]
  | str _ => ["string"]
  | arr _ => ["array"]
  | obj _ => ["object"]

theorem null_mem_typeNames {v : Json} (h : "null" ∈ v.typeNames) : v = null := by
  unfold typeNames at h
  split at h
  · rfl
  case h_4 d => split at h <;> simp at h
  all_goals simp at h

end Json

namespace Reading

/-- The reading that tells integers from decimals when it compares numbers. -/
def strict : Reading where
  equal a b := a.same b = true
  isOf v name := name ∈ v.typeNames
  null := Json.null_mem_typeNames

variable (reading : Reading) (v : Json)

def HasName : Json → Prop
  | .str name => reading.isOf v name
  | _ => False

def HasType : Json → Prop
  | .arr types => ∃ type ∈ types, reading.HasName v type
  | type => reading.HasName v type

variable {reading v}

theorem hasType_list (hv : v ≠ .null) {types : List Json} :
    reading.HasType v (.arr types) ↔ ∃ type ∈ namedTypes types, reading.HasName v type := by
  simp only [HasType, namedTypes, List.mem_filter, decide_eq_true_eq, and_assoc]
  refine exists_congr fun type => and_congr_right fun _ => (and_iff_right_of_imp ?_).symm
  rintro hname rfl
  exact hv (reading.null hname)

end Reading

namespace Schema

/-- The conditions on a value that a node states itself, but for lost keywords. -/
@[mk_iff]
structure Fits (lost : Schema → String → Prop) (reading : Reading) (v : Json) (s : Schema) :
    Prop where
  possible : s ≠ .bool false
  type : ∀ type, s.get? "type" = some type → ¬ lost s "type" → reading.HasType v type
  enum : ∀ values, s.get? "enum" = some (.arr values) → ¬ lost s "enum" →
    ∃ value ∈ values, reading.equal value v
  const : ∀ value, s.get? "const" = some value → reading.equal value v

/-- A value fits a node, and is accepted by one of its choices unless there are none or they are
lost. -/
inductive AcceptsBut (lost : Schema → String → Prop) (reading : Reading) (v : Json) :
    Schema → Prop where
  | plain {s : Schema} : s.Fits lost reading v →
      (∀ choices, s.get? "anyOf" = some (.arr choices) → lost s "anyOf") →
      AcceptsBut lost reading v s
  | choice {s choice : Schema} {choices : List Json} : s.Fits lost reading v →
      s.get? "anyOf" = some (.arr choices) → choice ∈ choices →
      AcceptsBut lost reading v choice → AcceptsBut lost reading v s

/-- A value is accepted by the types, values and choices of a schema; other keywords are not
looked at. -/
def Accepts (reading : Reading) (v : Json) (s : Schema) : Prop :=
  AcceptsBut (fun _ _ => False) reading v s

/-- The keywords in whose place others are put: a constant overwrites an enumeration, a list of
several types a choice, and a list of no other type than `null` is dropped. -/
def Overwritten (s : Schema) : String → Prop
  | "enum" => ∃ value, s.get? "const" = some value
  | "anyOf" => ∃ types, s.get? "type" = some (.arr types) ∧ 1 < (namedTypes types).length
  | "type" => ∃ types, s.get? "type" = some (.arr types) ∧ namedTypes types = []
  | _ => False

variable {lost lost' : Schema → String → Prop} {reading : Reading} {v : Json} {s t : Schema}
  {ms : Members}

theorem acceptsBut_iff : AcceptsBut lost reading v s ↔ s.Fits lost reading v ∧
    ∀ choices, s.get? "anyOf" = some (.arr choices) → ¬ lost s "anyOf" →
      ∃ choice ∈ choices, AcceptsBut lost reading v choice := by
  constructor
  · rintro (⟨hfits, hlost⟩ | ⟨hfits, hchoices, hmem, haccepts⟩)
    · exact ⟨hfits, fun choices hchoices hkept => absurd (hlost choices hchoices) hkept⟩
    · refine ⟨hfits, fun others hothers _ => ?_⟩
      cases hchoices.symm.trans hothers
      exact ⟨_, hmem, haccepts⟩
  · rintro ⟨hfits, hchoice⟩
    by_cases hplain : ∀ choices, s.get? "anyOf" = some (.arr choices) → lost s "anyOf"
    · exact .plain hfits hplain
    · simp only [not_forall] at hplain
      obtain ⟨choices, hchoices, hkept⟩ := hplain
      obtain ⟨choice, hmem, haccepts⟩ := hchoice choices hchoices hkept
      exact .choice hfits hchoices hmem haccepts

theorem acceptsBut_of_not_isObject (hs : s.isObject = false) :
    AcceptsBut lost reading v s ↔ s ≠ .bool false := by
  have hnone : ∀ key, s.get? key = none := by
    intro key
    cases s with
    | obj ms => cases hs
    | _ => rfl
  rw [acceptsBut_iff, fits_iff]
  simp [hnone]

theorem exists_slot_of_mem_choices {choices : List Json}
    (hchoices : ms.get? "anyOf" = some (.arr choices)) (ht : t ∈ choices) :
    ∃ slot, (slot, t) ∈ ms.children := by
  obtain ⟨i, hi⟩ := Slot.exists_mem_numbered (.branch "anyOf") 0 ht
  have hk : ("anyOf", Layout.branches) ∈ Slot.keywords := by decide
  exact ⟨_, Members.mem_children_iff.mpr ⟨_, hk, _, hchoices, hi⟩⟩

theorem holds_of_mem_choices {choices : List Json} (hchoices : s.get? "anyOf" = some (.arr choices))
    (ht : t ∈ choices) : s.Holds t := by
  obtain ⟨ms, rfl⟩ := exists_obj_of_get? hchoices
  obtain ⟨slot, hslot⟩ := exists_slot_of_mem_choices hchoices ht
  exact Holds.here.child hslot

theorem Fits.mono (h : s.Fits lost reading v)
    (hlost : ∀ key, s.get? key ≠ none → lost s key → lost' s key) : s.Fits lost' reading v where
  possible := h.possible
  type type htype hkept := by
    refine h.type type htype fun hl => hkept (hlost "type" ?_ hl)
    simp [htype]
  enum values hvalues hkept := by
    refine h.enum values hvalues fun hl => hkept (hlost "enum" ?_ hl)
    simp [hvalues]
  const := h.const

/-- What is lost in more places leaves more to be accepted. -/
theorem AcceptsBut.mono (h : AcceptsBut lost reading v s)
    (hlost : ∀ t, s.Holds t → ∀ key, t.get? key ≠ none → lost t key → lost' t key) :
    AcceptsBut lost' reading v s := by
  induction h with
  | plain hfits hplain =>
    refine .plain (hfits.mono (hlost _ .here)) fun choices hchoices => ?_
    exact hlost _ .here "anyOf" (by simp [hchoices]) (hplain choices hchoices)
  | choice hfits hchoices hmem _ ih =>
    refine .choice (hfits.mono (hlost _ .here)) hchoices hmem (ih fun t ht => ?_)
    exact hlost t ((holds_of_mem_choices hchoices hmem).trans ht)

theorem accepts_type {type : Json} (htype : ∃ name, type = .str name) :
    Accepts reading v (.obj [("type", type)]) ↔ reading.HasName v type := by
  obtain ⟨name, rfl⟩ := htype
  refine acceptsBut_iff.trans ⟨fun h => h.1.type _ rfl id, fun h => ⟨?_, ?_⟩⟩
  · constructor
    · exact Json.noConfusion
    · rintro type htype -
      cases htype
      exact h
    · rintro values hvalues
      cases hvalues
    · rintro value hvalue
      cases hvalue
  · rintro choices hchoices
    cases hchoices

theorem accepts_types {types : List Json} (hnames : ∀ type ∈ types, ∃ name, type = .str name) :
    (∃ choice ∈ types.map fun t => .obj [("type", t)], Accepts reading v choice) ↔
      ∃ type ∈ types, reading.HasName v type := by
  simp only [List.mem_map, exists_exists_and_eq_and]
  exact exists_congr fun type => and_congr_right fun hmem => accepts_type (hnames type hmem)

theorem get?_prepared_anyOf (h : (Json.obj ms).WellFormed) :
    (prepared ms).get? "anyOf" = match ms.get? "anyOf" with
      | some (.arr choices) => some (.arr (choices.map catalogEntry))
      | value => value := by
  have hk : ("anyOf", Layout.branches) ∈ Slot.keywords := by decide
  rw [get?_prepared_of_keyword h hk]
  cases Members.get? ms "anyOf" with
  | none => rfl
  | some value =>
    cases value with
    | arr choices =>
      refine congrArg (fun xs => some (Json.arr xs)) (Slot.map_numbered ?_ 0 choices)
      intro i x
      rfl
    | _ => rfl

section Adapted

variable {node : Members}

/-- The types and the choices of an adapted node, of which one may have taken the place of the
other. -/
theorem types_adapt (hn : node.keys.Nodup) (hnames : ListsTypeNames (.obj node)) (hv : v ≠ .null) :
    (∀ type, (adapt node).get? "type" = some type → reading.HasType v type) ∧
        (∀ choices, (adapt node).get? "anyOf" = some (.arr choices) →
          ∃ choice ∈ choices, Accepts reading v choice) ↔
      (∀ type, node.get? "type" = some type → ¬ Overwritten (.obj node) "type" →
          reading.HasType v type) ∧
        (∀ choices, node.get? "anyOf" = some (.arr choices) → ¬ Overwritten (.obj node) "anyOf" →
          ∃ choice ∈ choices, Accepts reading v choice) := by
  by_cases hlist : ∃ types, node.get? "type" = some (.arr types)
  · obtain ⟨types, ht⟩ := hlist
    have hname : ∀ type ∈ namedTypes types, ∃ name, type = .str name := fun type hmem =>
      hnames types ht type (List.mem_filter.mp hmem).1
    have hdropped : Overwritten (.obj node) "type" ↔ namedTypes types = [] := by
      simp [Overwritten, ht]
    have hchosen : Overwritten (.obj node) "anyOf" ↔ 1 < (namedTypes types).length := by
      simp [Overwritten, ht]
    rw [get?_adapt_of_list ht (by decide), get?_adapt_of_list ht (by decide), hdropped, hchosen, ht]
    simp only [Option.some.injEq, forall_eq', Reading.hasType_list hv]
    rcases hnamed : namedTypes types with _ | ⟨t, _ | ⟨t', rest⟩⟩
    · simp [get?_withTypes_nil_type hn]
    · obtain ⟨name, rfl⟩ := hname t (by simp [hnamed])
      simp [Reading.HasType]
    · have hseveral : 1 < (t :: t' :: rest).length := by simp
      rw [hnamed] at hname
      rw [get?_withTypes_several_type hn, get?_withTypes_several_anyOf]
      simp only [reduceCtorEq, false_imp_iff, implies_true, true_and, Option.some.injEq,
        Json.arr.injEq, forall_eq', accepts_types hname, not_false_eq_true, true_imp_iff, hseveral,
        not_true_eq_false, and_true]
  · have hkept : ¬ Overwritten (.obj node) "type" ∧ ¬ Overwritten (.obj node) "anyOf" :=
      ⟨fun ⟨types, ht, _⟩ => hlist ⟨types, ht⟩, fun ⟨types, ht, _⟩ => hlist ⟨types, ht⟩⟩
    rw [get?_adapt_of_not_list (not_exists.mp hlist) (by decide),
      get?_adapt_of_not_list (not_exists.mp hlist) (by decide)]
    simp [hkept]

theorem values_adapt (hn : node.keys.Nodup) :
    (∀ values, (adapt node).get? "enum" = some (.arr values) →
        ∃ value ∈ values, reading.equal value v) ∧
        (∀ value, (adapt node).get? "const" = some value → reading.equal value v) ↔
      (∀ values, node.get? "enum" = some (.arr values) → ¬ Overwritten (.obj node) "enum" →
        ∃ value ∈ values, reading.equal value v) ∧
        (∀ value, node.get? "const" = some value → reading.equal value v) := by
  have hover : Overwritten (.obj node) "enum" ↔ ∃ value, node.get? "const" = some value := Iff.rfl
  rw [get?_adapt_enum, get?_adapt_const hn, hover]
  cases node.get? "const" with
  | none => simp
  | some value => simp

/-- An adapted node accepts what the node does, but for its overwritten keywords. -/
theorem accepts_adapt (hn : node.keys.Nodup) (hnames : ListsTypeNames (.obj node))
    (hv : v ≠ .null) :
    Accepts reading v (.obj (adapt node)) ↔ Fits Overwritten reading v (.obj node) ∧
      ∀ choices, node.get? "anyOf" = some (.arr choices) → ¬ Overwritten (.obj node) "anyOf" →
        ∃ choice ∈ choices, Accepts reading v choice := by
  refine acceptsBut_iff.trans ⟨?_, ?_⟩
  · rintro ⟨hfits, hchoices⟩
    obtain ⟨htype, hchoices⟩ := (types_adapt hn hnames hv).mp
      ⟨fun type h => hfits.type type h id, fun choices h => hchoices choices h id⟩
    obtain ⟨henum, hconst⟩ := (values_adapt hn).mp
      ⟨fun values h => hfits.enum values h id, hfits.const⟩
    exact ⟨⟨Json.noConfusion, htype, henum, hconst⟩, hchoices⟩
  · rintro ⟨hfits, hchoices⟩
    obtain ⟨htype, hchoices⟩ := (types_adapt hn hnames hv).mpr ⟨hfits.type, hchoices⟩
    obtain ⟨henum, hconst⟩ := (values_adapt hn).mpr ⟨hfits.enum, hfits.const⟩
    exact ⟨⟨Json.noConfusion, fun type h _ => htype type h, fun values h _ => henum values h,
      hconst⟩, fun choices h _ => hchoices choices h⟩

end Adapted

theorem get?_prepared_of_simple (ms : Members) {key : String}
    (hkey : key ∈ ["type", "enum", "const"]) : (prepared ms).get? key = ms.get? key := by
  have hplain : ∀ key ∈ ["type", "enum", "const"],
      key ∉ compilerKeywords ∧ Slot.keywords.lookup key = none := by decide
  exact get?_prepared (hplain key hkey).1 (hplain key hkey).2

theorem overwritten_prepared (ms : Members) (key : String) :
    Overwritten (.obj (prepared ms)) key ↔ Overwritten (.obj ms) key := by
  have htype : (prepared ms).get? "type" = ms.get? "type" := get?_prepared_of_simple ms (by decide)
  have hconst : (prepared ms).get? "const" = ms.get? "const" :=
    get?_prepared_of_simple ms (by decide)
  unfold Overwritten
  simp only [Json.get?_obj, htype, hconst]

theorem fits_prepared (ms : Members) :
    Fits Overwritten reading v (.obj (prepared ms)) ↔ Fits Overwritten reading v (.obj ms) := by
  have htype : (prepared ms).get? "type" = ms.get? "type" := get?_prepared_of_simple ms (by decide)
  have henum : (prepared ms).get? "enum" = ms.get? "enum" := get?_prepared_of_simple ms (by decide)
  have hconst : (prepared ms).get? "const" = ms.get? "const" :=
    get?_prepared_of_simple ms (by decide)
  simp only [fits_iff, Json.get?_obj, htype, henum, hconst, overwritten_prepared, ne_eq,
    reduceCtorEq]

theorem accepts_catalogEntry_iff (h : s.WellFormed)
    (hnames : ∀ t, s.Holds t → t.ListsTypeNames) (hv : v ≠ .null) :
    Accepts reading v s.catalogEntry ↔ AcceptsBut Overwritten reading v s := by
  induction hd : s.depth using Nat.strong_induction_on generalizing s with
  | _ d ih =>
    subst hd
    cases s with
    | obj ms =>
      have hn : (Members.keys ms).Nodup := h.keys_nodup
      have hlists : ListsTypeNames (.obj (prepared ms)) := by
        intro types ht
        exact hnames _ .here types ((get?_prepared_of_simple ms (by decide)).symm.trans ht)
      have hchoice : ∀ choices, Members.get? ms "anyOf" = some (.arr choices) →
          ∀ choice ∈ choices, (Accepts reading v (catalogEntry choice) ↔
            AcceptsBut Overwritten reading v choice) := by
        intro choices hchoices choice hmem
        have hheld := holds_of_mem_choices (s := .obj ms) hchoices hmem
        obtain ⟨slot, hslot⟩ := exists_slot_of_mem_choices hchoices hmem
        exact ih _ (Members.depth_lt_of_mem_children hslot) (h.of_mem_children hslot)
          (fun t ht => hnames t (hheld.trans ht)) rfl
      rw [catalogEntry_obj_eq_adapt, accepts_adapt (nodup_keys_prepared hn) hlists hv,
        acceptsBut_iff, fits_prepared, overwritten_prepared, get?_prepared_anyOf h, Json.get?_obj]
      refine and_congr_right fun _ => ?_
      cases hanyOf : Members.get? ms "anyOf" with
      | none => simp
      | some value =>
        cases value with
        | arr choices =>
          simp only [Option.some.injEq, Json.arr.injEq, forall_eq', List.mem_map,
            exists_exists_and_eq_and]
          exact imp_congr_right fun _ => exists_congr fun choice =>
            and_congr_right fun hmem => hchoice choices hanyOf choice hmem
        | _ => simp
    | _ =>
      rw [catalogEntry_of_not_isObject rfl]
      exact (acceptsBut_of_not_isObject rfl).trans (acceptsBut_of_not_isObject rfl).symm

/-- The entry of a schema accepts every value other than `null` that the schema accepts, and it
accepts no other if no keyword is put in the place of one that is there. In general it accepts what
the schema accepts without its overwritten keywords. -/
theorem accepts_catalogEntry (h : s.WellFormed) (hnames : ∀ t, s.Holds t → t.ListsTypeNames)
    (hv : v ≠ .null) :
    (Accepts reading v s.catalogEntry ↔ AcceptsBut Overwritten reading v s) ∧
      (Accepts reading v s → Accepts reading v s.catalogEntry) ∧
      ((∀ t, s.Holds t → ∀ key, t.Overwritten key → t.get? key = none) →
        (Accepts reading v s.catalogEntry ↔ Accepts reading v s)) := by
  have hexact : Accepts reading v s.catalogEntry ↔ AcceptsBut Overwritten reading v s :=
    accepts_catalogEntry_iff h hnames hv
  have hentry : Accepts reading v s → Accepts reading v s.catalogEntry := fun haccepts =>
    hexact.mpr (haccepts.mono fun _ _ _ _ => False.elim)
  refine ⟨hexact, hentry, fun hnone => ⟨fun haccepts => ?_, hentry⟩⟩
  exact (hexact.mp haccepts).mono fun t ht key hkey hover => hkey (hnone t ht key hover)

def codes : Schema :=
  .obj [("anyOf", .arr [.obj [("const", .str "a")],
    .obj [("type", .arr [.str "integer", .str "null"]), ("enum", .arr [.num (.int 1)])]])]

theorem codes_holds (ht : codes.Holds t) : t = codes ∨ t = .obj [("const", .str "a")] ∨
    t = .obj [("type", .arr [.str "integer", .str "null"]), ("enum", .arr [.num (.int 1)])] := by
  induction ht with
  | here => exact .inl rfl
  | @child ms c _ hc ih =>
    rcases ih with he | he | he
    · cases he
      rcases hc with _ | ⟨_, _ | ⟨_, hc⟩⟩
      · exact .inr (.inl rfl)
      · exact .inr (.inr rfl)
      · cases hc
    · cases he
      cases hc
    · cases he
      cases hc

theorem listsTypeNames_codes (ht : codes.Holds t) : t.ListsTypeNames := by
  intro types htypes type hmem
  rcases codes_holds ht with rfl | rfl | rfl
  · cases htypes
  · cases htypes
  · cases htypes
    simp only [List.mem_cons, List.not_mem_nil, or_false] at hmem
    rcases hmem with rfl | rfl
    · exact ⟨_, rfl⟩
    · exact ⟨_, rfl⟩

theorem get?_of_overwritten_codes (ht : codes.Holds t) {key : String} (hkey : t.Overwritten key) :
    t.get? key = none := by
  unfold Overwritten at hkey
  rcases codes_holds ht with rfl | rfl | rfl
  · split at hkey <;> simp [codes, Members.get?_cons] at hkey
  · split at hkey
    · rfl
    all_goals simp [Members.get?_cons] at hkey
  · split at hkey <;> simp [Members.get?_cons, namedTypes] at hkey

theorem accepts_codes :
    codes.WellFormed ∧ (∀ t, codes.Holds t → t.ListsTypeNames) ∧
    (∀ t, codes.Holds t → ∀ key, t.Overwritten key → t.get? key = none) ∧
    codes.catalogEntry = .obj [("anyOf", .arr [.obj [("enum", .arr [.str "a"])],
      .obj [("type", .str "integer"), ("enum", .arr [.num (.int 1)]), ("nullable", .bool true)]])] ∧
    ∀ n, (Accepts .strict (.num (.int n)) codes.catalogEntry ↔
      Accepts .strict (.num (.int n)) codes) := by
  have hwf : codes.WellFormed := by
    simp [codes, Json.WellFormed, Json.WellFormedMembers, Json.WellFormedItems, Number.WellFormed]
  have hnames : ∀ t, codes.Holds t → t.ListsTypeNames := fun _ => listsTypeNames_codes
  have hover : ∀ t, codes.Holds t → ∀ key, t.Overwritten key → t.get? key = none :=
    fun _ ht _ => get?_of_overwritten_codes ht
  refine ⟨hwf, hnames, hover, by decide +kernel, fun n => ?_⟩
  exact (accepts_catalogEntry hwf hnames Json.noConfusion).2.2 hover

def narrowed : Schema :=
  .obj [("type", .arr [.str "string", .str "integer"]),
    ("anyOf", .arr [.obj [("enum", .arr [.str "a"])]])]

theorem not_accepts_narrowed :
    narrowed.catalogEntry = .obj [("anyOf", .arr
      [.obj [("type", .str "string")], .obj [("type", .str "integer")]])] ∧
    Accepts .strict (.str "b") narrowed.catalogEntry ∧ ¬ Accepts .strict (.str "b") narrowed := by
  have hentry : narrowed.catalogEntry = .obj [("anyOf", .arr
      [.obj [("type", .str "string")], .obj [("type", .str "integer")]])] := by decide +kernel
  refine ⟨hentry, ?_, fun h => ?_⟩
  · rw [hentry]
    refine .choice ?_ rfl (.head _) ((accepts_type ⟨_, rfl⟩).mpr (.head _))
    simp [fits_iff, Members.get?_cons]
  · obtain ⟨choice, hmem, hchoice⟩ := (acceptsBut_iff.mp h).2 _ rfl id
    cases List.mem_singleton.mp hmem
    obtain ⟨value, hvalue, hequal⟩ := (acceptsBut_iff.mp hchoice).1.enum _ rfl id
    cases List.mem_singleton.mp hvalue
    exact absurd hequal (show ¬ (Json.str "a").same (.str "b") = true by decide)

end Schema

end SchemaRoutes
