import SchemaRoutes.Proofs.Schema.Assembly

/-! # The keys of a seed

A record in a seed starts from the default of its own schema, and its properties are laid over
that. Suppressed properties are left out of this, but nothing takes their keys away again: they are
there exactly if the default has brought them.
-/

namespace SchemaRoutes

namespace Schema

variable {s p t : Schema} {name : String}

def IsSuppressed (p : Schema) : Prop := p.isReadOnly ∨ p.isList ∨ p.holdsMembers ∧ p.isIdentified

instance : Decidable p.IsSuppressed := inferInstanceAs (Decidable (_ ∨ _ ∨ _))

def property? (s : Schema) (name : String) : Option Schema := (s.properties?.getD []).get? name

/-- The names lead to a record that stands inline in the seed of the schema. -/
inductive Inlines : Schema → List String → Schema → Prop where
  | here (s : Schema) : Inlines s [] s
  | property {s p t : Schema} {name : String} {names : List String}
      (found : s.property? name = some p) (record : p.isRecord) (kept : ¬ p.IsSuppressed)
      (rest : Inlines p names t) : Inlines s (name :: names) t

theorem isList_eq_false (h : s.isRecord = true) : s.isList = false := by
  rw [← Bool.not_eq_true, isList_iff]
  rw [isRecord_iff] at h
  intro ha
  rcases h with h | ⟨h, -⟩
  · exact absurd (ha.symm.trans h) (by decide)
  · cases ha.symm.trans h

theorem wellFormed_properties (h : s.WellFormed) :
    (Json.obj (s.properties?.getD [])).WellFormed := by
  cases hp : s.properties? with
  | none => exact ⟨List.nodup_nil, trivial⟩
  | some ps => exact h.of_get? (properties?_eq_some_iff.mp hp)

theorem wellFormed_of_property? (h : s.WellFormed) (hp : s.property? name = some p) :
    p.WellFormed :=
  (wellFormed_properties h).of_get? hp

end Schema

namespace Seed

variable {parts : List (String × Seed)} {start : Members} {key name : String} {seed : Seed}
  {isRoot : Bool} {s p t : Schema}

theorem lay_of_keyed (h : seed.keyed = true) :
    lay start (name, seed) = start.insert name
      (if seed.value = .null then (start.get? name).getD .null else seed.value) :=
  if_pos h

theorem lay_of_not_keyed (h : ¬ seed.keyed = true) : lay start (name, seed) = start := if_neg h

theorem mem_keys_lay :
    key ∈ (lay start (name, seed)).keys ↔ key ∈ start.keys ∨ key = name ∧ seed.keyed = true := by
  by_cases hk : seed.keyed = true
  · rw [lay_of_keyed hk, Members.keys_insert, List.mem_append, and_iff_left hk]
    by_cases hn : name ∈ start.keys
    · rw [if_pos hn, or_iff_left List.not_mem_nil]
      exact ⟨.inl, fun h => h.elim id fun he => he ▸ hn⟩
    · rw [if_neg hn, List.mem_singleton]
  · rw [lay_of_not_keyed hk, or_iff_left fun h => hk h.2]

/-- Only what contributes a key adds one, and no key is taken away. -/
theorem mem_keys_foldl_lay :
    key ∈ (parts.foldl lay start).keys ↔
      key ∈ start.keys ∨ ∃ part ∈ parts, key = part.1 ∧ part.2.keyed = true := by
  induction parts generalizing start with
  | nil => simp
  | cons part parts ih => rw [List.foldl_cons, ih, mem_keys_lay, List.exists_mem_cons_iff, or_assoc]

theorem get?_lay_of_ne (h : key ≠ name) : (lay start (name, seed)).get? key = start.get? key := by
  by_cases hk : seed.keyed = true
  · rw [lay_of_keyed hk, Members.get?_insert_of_ne h]
  · rw [lay_of_not_keyed hk]

theorem get?_foldl_lay_of_not_mem (h : key ∉ parts.map Prod.fst) :
    (parts.foldl lay start).get? key = start.get? key := by
  induction parts generalizing start with
  | nil => rfl
  | cons part parts ih =>
    rw [List.map_cons, List.mem_cons, not_or] at h
    rw [List.foldl_cons, ih h.2, get?_lay_of_ne h.1]

/-- A property that contributes a key has its value, or the one before it in place of `null`. -/
theorem get?_foldl_lay_of_keyed (hn : (parts.map Prod.fst).Nodup) (hp : (name, seed) ∈ parts)
    (hk : seed.keyed = true) :
    (parts.foldl lay start).get? name =
      some (if seed.value = .null then (start.get? name).getD .null else seed.value) := by
  induction parts generalizing start with
  | nil => cases hp
  | cons part parts ih =>
    obtain ⟨key, first⟩ := part
    rw [List.map_cons, List.nodup_cons] at hn
    rw [List.foldl_cons]
    rcases List.mem_cons.mp hp with he | hm
    · cases he
      rw [get?_foldl_lay_of_not_mem hn.1, lay_of_keyed hk, Members.get?_insert_self]
    · have hne : name ≠ key := by
        rintro rfl
        exact hn.1 (List.mem_map.mpr ⟨_, hm, rfl⟩)
      rw [ih hn.2 hm, get?_lay_of_ne hne]

theorem isSuppressed_iff : p.IsSuppressed ↔ IsWithheld false p ∨ p.isList = true := by
  unfold Schema.IsSuppressed IsWithheld
  constructor
  · rintro (h | h | h)
    · exact .inl (.inr (.inr h))
    · exact .inr h
    · exact .inl (.inr (.inl ⟨rfl, h⟩))
  · rintro ((⟨h, -⟩ | ⟨-, h⟩ | h) | h)
    · exact .inr (.inl h)
    · exact .inr (.inr h)
    · exact .inl h
    · exact .inr (.inl h)

theorem keyed_assemble_iff : (assemble false p).keyed = true ↔ ¬ p.IsSuppressed := by
  rw [isSuppressed_iff, not_or, assemble_eq, atNode]
  by_cases hw : IsWithheld false p
  · simp [hw]
  by_cases hl : p.isList = true
  · simp [hw, hl]
  by_cases hr : p.isRecord = true <;> simp [hw, hl, hr]

theorem assemble_of_record (hr : s.isRecord = true) (hw : ¬ IsWithheld isRoot s) :
    assemble isRoot s =
      ⟨.obj (((s.properties?.getD []).map fun p => (p.1, assemble false p.2)).foldl
        lay s.defaultMembers), true⟩ := by
  rw [assemble_eq, atNode, if_neg hw, if_neg (by simp [Schema.isList_eq_false hr]), if_pos hr]

theorem not_isWithheld_true (hr : s.isRecord = true) (hw : s.isReadOnly = false) :
    ¬ IsWithheld true s := by
  rintro (⟨hl, -⟩ | ⟨hroot, -⟩ | h)
  · cases hl.symm.trans (Schema.isList_eq_false hr)
  · cases hroot
  · cases h.symm.trans hw

/-- Under a property stands what it comes to, or what the default has in place of `null`. -/
theorem get?_assemble (h : s.WellFormed) (hr : s.isRecord = true) (hw : ¬ IsWithheld isRoot s)
    (hp : s.property? name = some p) (hk : ¬ p.IsSuppressed) :
    (assemble isRoot s).value.get? name =
      some (if (assemble false p).value = .null then (s.defaultMembers.get? name).getD .null
        else (assemble false p).value) := by
  have hn := (Schema.wellFormed_properties h).keys_nodup
  have hmem : (name, assemble false p) ∈
      (s.properties?.getD []).map fun p => (p.1, assemble false p.2) :=
    List.mem_map.mpr ⟨(name, p), Members.mem_of_get? hp, rfl⟩
  rw [assemble_of_record hr hw]
  refine get?_foldl_lay_of_keyed ?_ hmem (keyed_assemble_iff.mpr hk)
  rwa [List.map_map]

theorem get?_assemble_of_property (h : s.WellFormed) (hr : s.isRecord = true)
    (hw : ¬ IsWithheld isRoot s) (hp : s.property? name = some p) (hpr : p.isRecord = true)
    (hk : ¬ p.IsSuppressed) :
    (assemble isRoot s).value.get? name = some (assemble false p).value := by
  have hpw : ¬ IsWithheld false p := fun h => hk (isSuppressed_iff.mpr (.inl h))
  have hv : (assemble false p).value ≠ .null := by
    rw [assemble_of_record hpr hpw]
    exact Json.noConfusion
  rw [get?_assemble h hr hw hp hk, if_neg hv]

theorem exists_assemble_of_inlines {names : List String} (hi : s.Inlines names t)
    (h : s.WellFormed) (hr : s.isRecord = true) (hw : ¬ IsWithheld isRoot s) :
    ∃ isRoot', t.WellFormed ∧ t.isRecord = true ∧ ¬ IsWithheld isRoot' t ∧
      names.foldlM Json.get? (assemble isRoot s).value = some (assemble isRoot' t).value := by
  induction hi generalizing isRoot with
  | here s => exact ⟨isRoot, h, hr, hw, rfl⟩
  | property found record kept _ ih =>
    obtain ⟨isRoot', ht, htr, htw, hvalue⟩ :=
      ih (Schema.wellFormed_of_property? h found) record
        fun hpw => kept (isSuppressed_iff.mpr (.inl hpw))
    refine ⟨isRoot', ht, htr, htw, ?_⟩
    rw [List.foldlM_cons, get?_assemble_of_property h hr hw found record kept]
    exact hvalue

/-- The keys of a record are those of its default and those of its contributing properties. -/
theorem mem_keys_assemble_iff (h : s.WellFormed) (hr : s.isRecord = true)
    (hw : ¬ IsWithheld isRoot s) :
    key ∈ (assemble isRoot s).value.members.keys ↔
      key ∈ s.defaultMembers.keys ∨ ∃ p, s.property? key = some p ∧ ¬ p.IsSuppressed := by
  rw [assemble_of_record hr hw]
  change key ∈ (List.foldl lay _ _).keys ↔ _
  rw [mem_keys_foldl_lay]
  refine or_congr_right ?_
  constructor
  · rintro ⟨_, hm, rfl, hk⟩
    obtain ⟨⟨name, p⟩, hp, rfl⟩ := List.mem_map.mp hm
    exact ⟨p, Members.get?_of_mem (Schema.wellFormed_properties h).keys_nodup hp,
      keyed_assemble_iff.mp hk⟩
  · rintro ⟨p, hp, hk⟩
    exact ⟨_, List.mem_map.mpr ⟨(key, p), Members.mem_of_get? hp, rfl⟩, rfl,
      keyed_assemble_iff.mpr hk⟩

end Seed

/-- In the seed of a writable record, each record that stands inline has the keys of its own default
and of its properties that are not suppressed. So a suppressed property has a key exactly if the
record's own default brings one, whatever the defaults around it are. -/
theorem Schema.mem_seed_keys {s t : Schema} {names : List String} (h : s.WellFormed)
    (hr : s.isRecord = true) (hw : s.isReadOnly = false) (hi : s.Inlines names t) :
    ∃ ms : Members, names.foldlM Json.get? s.seed = some (.obj ms) ∧
      (∀ key, key ∈ ms.keys ↔ key ∈ t.defaultMembers.keys ∨
        ∃ p, t.property? key = some p ∧ ¬ p.IsSuppressed) ∧
      ∀ name p, t.property? name = some p → p.IsSuppressed →
        (name ∈ ms.keys ↔ name ∈ t.defaultMembers.keys) := by
  obtain ⟨isRoot', ht, htr, htw, hvalue⟩ :=
    Seed.exists_assemble_of_inlines hi h hr (Seed.not_isWithheld_true hr hw)
  have hkeys : ∀ key, key ∈ (Seed.assemble isRoot' t).value.members.keys ↔
      key ∈ t.defaultMembers.keys ∨ ∃ p, t.property? key = some p ∧ ¬ p.IsSuppressed :=
    fun _ => Seed.mem_keys_assemble_iff ht htr htw
  rw [Seed.assemble_of_record htr htw] at hvalue hkeys
  refine ⟨_, ?_, hkeys, ?_⟩
  · rw [seed_eq, Seed.of_eq_assemble]
    exact hvalue
  · intro name p hp hs
    refine (hkeys name).trans (or_iff_left ?_)
    rintro ⟨p', hp', hk⟩
    cases hp.symm.trans hp'
    exact hk hs

def Schema.presetNote : Schema :=
  .obj [("type", .str "object"),
    ("default", .obj [("tags", .arr [.str "new"]), ("created", .str "today"),
      ("folder", .obj []), ("author", .obj [("tags", .arr [])])]),
    ("properties", .obj [
      ("tags", .obj [("type", .str "array")]),
      ("created", .obj [("type", .str "string"), ("readOnly", .bool true)]),
      ("folder", .obj [("$id", .str "folder"), ("type", .str "object")]),
      ("author", .obj [("properties", .obj [
        ("tags", .obj [("type", .str "array")]), ("name", .obj [])])])])]

theorem Schema.mem_seed_keys_author : ∃ ms : Members,
    ["author"].foldlM Json.get? presetNote.seed = some (.obj ms) ∧
      "name" ∈ ms.keys ∧ "tags" ∉ ms.keys := by
  have hwf : presetNote.WellFormed := by
    simp [presetNote, Json.WellFormed, Json.WellFormedMembers, Json.WellFormedItems]
  have hi : presetNote.Inlines ["author"] (.obj [("properties", .obj [
      ("tags", .obj [("type", .str "array")]), ("name", .obj [])])]) :=
    .property rfl (by decide) (by decide) (.here _)
  obtain ⟨ms, hms, hkeys, hsuppressed⟩ := mem_seed_keys hwf (by decide) (by decide) hi
  refine ⟨ms, hms, (hkeys "name").mpr (.inr ⟨_, rfl, by decide⟩), fun h => ?_⟩
  have hdefault := (hsuppressed "tags" _ rfl (by decide)).mp h
  exact absurd hdefault (by decide)

theorem Schema.seed_presetNote :
    presetNote.isRecord = true ∧ presetNote.isReadOnly = false ∧
    (∀ name ∈ ["tags", "created", "folder"],
      ∃ p, presetNote.property? name = some p ∧ p.IsSuppressed) ∧
    presetNote.seed = .obj [("tags", .arr [.str "new"]), ("created", .str "today"),
      ("folder", .obj []), ("author", .obj [("name", .null)])] := by
  refine ⟨by decide, by decide, ?_, by decide +kernel⟩
  simp only [List.forall_mem_cons]
  exact ⟨⟨_, rfl, by decide⟩, ⟨_, rfl, by decide⟩, ⟨_, rfl, by decide⟩, nofun⟩

end SchemaRoutes
