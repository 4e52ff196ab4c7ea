import SchemaRoutes.Api.Site

/-! # Questions about a schema, keyword by keyword

Each Boolean question about a node is one about the values of its keywords.
-/

namespace SchemaRoutes.Schema

variable {s : Schema}

theorem exists_obj_of_get? {key : String} {v : Json} (hv : s.get? key = some v) :
    ∃ ms : Members, s = .obj ms := by
  cases s with
  | obj ms => exact ⟨ms, rfl⟩
  | _ => simp [Json.get?, Json.members, Members.get?] at hv

theorem isIdentified_iff : s.isIdentified = true ↔ ∃ id, s.get? "$id" = some id ∧ id ≠ .null := by
  unfold isIdentified declares
  split
  · next h => simp [h]
  · next h => simp [h]
  · next id hn h => exact iff_of_true rfl ⟨id, h, hn⟩

theorem typeName?_eq_some_iff {t : String} :
    s.typeName? = some t ↔ s.get? "type" = some (.str t) := by
  unfold typeName?
  cases h : s.get? "type" with
  | none => simp
  | some v => cases v <;> simp [Json.str?]

theorem title?_eq_some_iff {t : String} : s.title? = some t ↔ s.get? "title" = some (.str t) := by
  unfold title?
  cases h : s.get? "title" with
  | none => simp
  | some v => cases v <;> simp [Json.str?]

theorem properties?_eq_some_iff {ms : Members} :
    s.properties? = some ms ↔ s.get? "properties" = some (.obj ms) := by
  unfold properties?
  cases h : s.get? "properties" with
  | none => simp
  | some v => cases v <;> simp

theorem isList_iff : s.isList = true ↔ s.get? "type" = some (.str "array") := by
  simp [isList, typeName?_eq_some_iff]

theorem holdsMembers_iff :
    s.holdsMembers = true ↔
      s.get? "type" = some (.str "object") ∨ ∃ ms, s.get? "properties" = some (.obj ms) := by
  simp [holdsMembers, typeName?_eq_some_iff, Option.isSome_iff_exists, properties?_eq_some_iff]

theorem isRecord_iff :
    s.isRecord = true ↔
      s.get? "type" = some (.str "object") ∨
        s.get? "type" = none ∧ ∃ ms, s.get? "properties" = some (.obj ms) := by
  unfold isRecord
  split
  · next t h => simp [h]
  · next v hn h => simpa [h] using fun he => hn _ he
  · next h => simp [h, Option.isSome_iff_exists, properties?_eq_some_iff]

theorem collectionItems?_eq_some_iff {t : Schema} :
    s.collectionItems? = some t ↔
      s.get? "type" = some (.str "array") ∧ s.get? "items" = some t ∧ ∃ ms, t = .obj ms := by
  unfold collectionItems?
  split
  · next h =>
    rw [isList_iff] at h
    split
    · next ms hi =>
      simp only [h, hi, Option.some.injEq, true_and, iff_self_and]
      rintro rfl
      exact ⟨ms, rfl⟩
    · next hn =>
      simp only [reduceCtorEq, h, true_and, false_iff, not_and, not_exists]
      rintro hi ms rfl
      exact hn ms hi
  · next h => simp [← isList_iff, h]

theorem collectionItems?_eq_none_iff :
    s.collectionItems? = none ↔
      ¬ (s.get? "type" = some (.str "array") ∧ ∃ ms, s.get? "items" = some (.obj ms)) := by
  rw [Option.eq_none_iff_forall_ne_some]
  constructor
  · rintro hn ⟨ha, ms, hi⟩
    exact hn _ (collectionItems?_eq_some_iff.mpr ⟨ha, hi, ms, rfl⟩)
  · intro hn t ht
    obtain ⟨ha, hi, ms, rfl⟩ := collectionItems?_eq_some_iff.mp ht
    exact hn ⟨ha, ms, hi⟩

end SchemaRoutes.Schema
