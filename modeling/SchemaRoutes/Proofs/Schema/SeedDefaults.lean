import SchemaRoutes.Proofs.Schema.SeedKeys

/-! # What the default of a record fills in

A property without a value takes the one that the default of the record has for it. A scalar without
a default is such a property. A record is not: with no default anywhere in it, it still comes to its
outline, the keys of its properties with nothing under them, and the outline takes the place of
whatever the default around it holds.
-/

namespace SchemaRoutes

namespace Schema

/-- No default at the node, nor at any property below it. What stands under other keywords does not
count. -/
inductive Undefaulted : Schema → Prop where
  | intro {s : Schema} (own : s.get? "default" = none)
      (properties : ∀ p ∈ s.properties?.getD [], Undefaulted p.2) : Undefaulted s

/-- The keys of the properties that are not suppressed, at every record below, and `null` under all
other properties. -/
inductive Outlines : Schema → Json → Prop where
  | record {s : Schema} {ms : Members} (record : s.isRecord = true)
      (keys : ∀ name, name ∈ ms.keys ↔ ∃ p, s.property? name = some p ∧ ¬ p.IsSuppressed)
      (properties : ∀ name p v, s.property? name = some p → ¬ p.IsSuppressed →
        ms.get? name = some v → Outlines p v) :
      Outlines s (.obj ms)
  | other {s : Schema} (other : s.isRecord = false) : Outlines s .null

variable {s p : Schema} {name : String}

theorem isList_eq_false_of_not_isSuppressed (h : ¬ p.IsSuppressed) : p.isList = false :=
  Bool.eq_false_iff.mpr fun hl => h (.inr (.inl hl))

theorem undefaulted_of_properties? (h : s.get? "default" = none) (hp : s.properties? = none) :
    s.Undefaulted := by
  refine .intro h ?_
  rw [hp]
  exact List.forall_mem_nil _

theorem Undefaulted.defaultMembers_eq (h : s.Undefaulted) : s.defaultMembers = [] := by
  obtain ⟨own, -⟩ := h
  rw [defaultMembers, own]

end Schema

namespace Seed

variable {s p : Schema} {isRoot : Bool} {name : String}

theorem not_isWithheld_of_not_isSuppressed (h : ¬ p.IsSuppressed) : ¬ IsWithheld isRoot p := by
  rintro (⟨hl, -⟩ | ⟨-, hr⟩ | hw)
  · exact h (.inr (.inl hl))
  · exact h (.inr (.inr hr))
  · exact h (.inl hw)

theorem assemble_of_scalar (hw : ¬ IsWithheld isRoot s) (hl : s.isList = false)
    (hr : s.isRecord = false) : assemble isRoot s = ⟨(s.get? "default").getD .null, true⟩ := by
  rw [assemble_eq, atNode, if_neg hw, if_neg (by simp [hl]), if_neg (by simp [hr])]

/-- The root of a schema and a property differ only in what an identifier does. -/
theorem seed_eq_of_not_isSuppressed (h : ¬ p.IsSuppressed) : p.seed = (assemble false p).value := by
  rw [Schema.seed_eq, of_eq_assemble, assemble_eq, assemble_eq, atNode, atNode,
    if_neg (not_isWithheld_of_not_isSuppressed h), if_neg (not_isWithheld_of_not_isSuppressed h)]

theorem outlines_assemble (hu : s.Undefaulted) : s.WellFormed → ∀ isRoot, ¬ IsWithheld isRoot s →
    s.isList = false → s.Outlines (assemble isRoot s).value := by
  induction hu with
  | @intro s own properties ih =>
    intro h isRoot hw hl
    have hd : s.defaultMembers = [] := Schema.Undefaulted.defaultMembers_eq ⟨own, properties⟩
    by_cases hr : s.isRecord = true
    · have hkeys : ∀ name, name ∈ (assemble isRoot s).value.members.keys ↔
          ∃ p, s.property? name = some p ∧ ¬ p.IsSuppressed := by
        intro name
        rw [mem_keys_assemble_iff h hr hw, hd]
        exact or_iff_right List.not_mem_nil
      -- No default stands in for a property, so it has what it comes to, even where that is `null`.
      have hvalue : ∀ name p, s.property? name = some p → ¬ p.IsSuppressed →
          (assemble isRoot s).value.get? name = some (assemble false p).value := by
        intro name p hp hk
        rw [get?_assemble h hr hw hp hk, hd]
        split
        · next hnull => exact congrArg some hnull.symm
        · rfl
      rw [assemble_of_record hr hw] at hkeys hvalue ⊢
      refine .record hr hkeys fun name p v hp hk hv => ?_
      rw [Option.some.inj (hv.symm.trans (hvalue name p hp hk))]
      exact ih _ (Members.mem_of_get? hp) (Schema.wellFormed_of_property? h hp) false
        (not_isWithheld_of_not_isSuppressed hk) (Schema.isList_eq_false_of_not_isSuppressed hk)
    · have hr := Bool.eq_false_iff.mpr hr
      rw [assemble_of_scalar hw hl hr, own]
      exact .other hr

end Seed

/-- Of a property without any default in it, the seed of a writable record has what the default of
the record holds for it, unless the property is a record. A record is in the seed with its own seed,
which is its outline. -/
theorem Schema.get?_seed_of_undefaulted {s p : Schema} {d : Members} {name : String} {v : Json}
    (h : s.WellFormed) (hr : s.isRecord = true) (hw : s.isReadOnly = false)
    (hd : s.get? "default" = some (.obj d)) (hp : s.property? name = some p)
    (hk : ¬ p.IsSuppressed) (hu : p.Undefaulted) (hv : d.get? name = some v) :
    (p.isRecord = false → s.seed.get? name = some v) ∧
    (p.isRecord = true → s.seed.get? name = some p.seed ∧ p.Outlines p.seed) ∧
    (s.seed.get? name = some v ↔ (p.isRecord = true → v = p.seed)) := by
  have hpw : ¬ Seed.IsWithheld false p := Seed.not_isWithheld_of_not_isSuppressed hk
  have hpl : p.isList = false := isList_eq_false_of_not_isSuppressed hk
  have hget : s.seed.get? name = some (if p.seed = .null then v else p.seed) := by
    have hdefault : s.defaultMembers.get? name = some v := by rwa [defaultMembers, hd]
    rw [seed_eq, Seed.of_eq_assemble, Seed.seed_eq_of_not_isSuppressed hk,
      Seed.get?_assemble h hr (Seed.not_isWithheld_true hr hw) hp hk, hdefault, Option.getD_some]
  have hscalar : p.isRecord = false → s.seed.get? name = some v := by
    intro hpr
    obtain ⟨own, -⟩ := hu
    have hnull : p.seed = .null := by
      rw [Seed.seed_eq_of_not_isSuppressed hk, Seed.assemble_of_scalar hpw hpl hpr, own]
      rfl
    rw [hget, if_pos hnull]
  have hrecord : p.isRecord = true → s.seed.get? name = some p.seed ∧ p.Outlines p.seed := by
    intro hpr
    have houtline := Seed.outlines_assemble hu (wellFormed_of_property? h hp) false hpw hpl
    rw [← Seed.seed_eq_of_not_isSuppressed hk] at houtline
    have hne : p.seed ≠ .null := by
      intro hnull
      rw [hnull] at houtline
      cases houtline with
      | other hno => cases hpr.symm.trans hno
    exact ⟨by rw [hget, if_neg hne], houtline⟩
  refine ⟨hscalar, hrecord, fun hs hpr => ?_, fun hs => ?_⟩
  · exact Option.some.inj (hs.symm.trans (hrecord hpr).1)
  · cases hpr : p.isRecord with
    | false => exact hscalar hpr
    | true => rw [(hrecord hpr).1, hs hpr]

def Schema.signedNote : Schema :=
  .obj [("type", .str "object"),
    ("default", .obj [("title", .str "Untitled"),
      ("author", .obj [("name", .str "anonymous")])]),
    ("properties", .obj [
      ("title", .obj [("type", .str "string")]),
      ("author", .obj [("properties", .obj [("name", .obj [])])])])]

theorem Schema.get?_seed_signedNote :
    signedNote.seed.get? "title" = some (.str "Untitled") ∧
      signedNote.seed.get? "author" = some (.obj [("name", .null)]) := by
  have hwf : signedNote.WellFormed := by
    simp [signedNote, Json.WellFormed, Json.WellFormedMembers]
  have htitle : Undefaulted (.obj [("type", .str "string")]) := undefaulted_of_properties? rfl rfl
  have hauthor : Undefaulted (.obj [("properties", .obj [("name", .obj [])])]) :=
    .intro rfl (List.forall_mem_singleton.mpr (undefaulted_of_properties? rfl rfl))
  constructor
  · exact (get?_seed_of_undefaulted hwf (by decide) (by decide) rfl rfl (by decide) htitle rfl).1
      (by decide)
  · refine ((get?_seed_of_undefaulted hwf (by decide) (by decide) rfl rfl (by decide) hauthor
      rfl).2.1 (by decide)).1.trans ?_
    exact congrArg some (by decide +kernel)

theorem Schema.seed_signedNote :
    signedNote.isRecord = true ∧ signedNote.isReadOnly = false ∧
    (∃ d : Members, signedNote.get? "default" = some (.obj d) ∧
      d.get? "author" = some (.obj [("name", .str "anonymous")])) ∧
    (∃ p, signedNote.property? "author" = some p ∧ ¬ p.IsSuppressed ∧ p.Undefaulted) ∧
    signedNote.seed = .obj [("title", .str "Untitled"), ("author", .obj [("name", .null)])] := by
  refine ⟨by decide, by decide, ⟨_, rfl, rfl⟩, ⟨_, rfl, by decide, ?_⟩, by decide +kernel⟩
  exact .intro rfl (List.forall_mem_singleton.mpr (undefaulted_of_properties? rfl rfl))

end SchemaRoutes
