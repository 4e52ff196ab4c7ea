import Mathlib.Algebra.Order.Field.Basic
import SchemaRoutes.Proofs.Json.Double
import SchemaRoutes.Proofs.Schema.Keywords

/-! # Bounds of numbers

In a schema an inclusive and an exclusive bound stand for themselves, and in the OpenAPI 3.0 form
there is one bound with a flag. An exclusive bound takes the place of an inclusive one, so the form
admits the same numbers as long as the inclusive bound is not the stricter of the two.
-/

namespace SchemaRoutes

def Double.value (d : Double) : ℚ := if d.negative then -d.magnitude else d.magnitude

def Number.value : Number → ℚ
  | int n => n
  | double d => d.value

inductive Side where
  | lower
  | upper

namespace Side

def bound : Side → String
  | lower => "minimum"
  | upper => "maximum"

def exclusive : Side → String
  | lower => "exclusiveMinimum"
  | upper => "exclusiveMaximum"

def Keeps : Side → ℚ → ℚ → Prop
  | lower, limit, x => limit ≤ x
  | upper, limit, x => x ≤ limit

def Clears : Side → ℚ → ℚ → Prop
  | lower, limit, x => limit < x
  | upper, limit, x => x < limit

variable {side : Side} {limit limit' x : ℚ}

theorem keywords_mem (side : Side) :
    (side.exclusive, side.bound) ∈ CatalogEntry.boundKeywords := by
  cases side <;> decide

theorem Keeps.trans_clears (h : side.Keeps limit limit') (hx : side.Clears limit' x) :
    side.Keeps limit x := by
  cases side
  · exact le_trans h (le_of_lt hx)
  · exact le_trans (le_of_lt hx) h

theorem exists_clears_of_not_keeps (h : ¬ side.Keeps limit limit') :
    ∃ x, side.Clears limit' x ∧ ¬ side.Keeps limit x := by
  cases side
  · obtain ⟨x, hlow, hhigh⟩ := exists_between (not_le.mp h)
    exact ⟨x, hlow, not_le.mpr hhigh⟩
  · obtain ⟨x, hlow, hhigh⟩ := exists_between (not_le.mp h)
    exact ⟨x, hhigh, not_le.mpr hlow⟩

end Side

open CatalogEntry

namespace Schema

def limit? (s : Schema) (key : String) : Option ℚ :=
  match s.get? key with
  | some (.num n) => some n.value
  | _ => none

/-- The inclusive and the exclusive bound on a side hold, each for itself. -/
def Bounds (s : Schema) (side : Side) (x : ℚ) : Prop :=
  (∀ limit, s.limit? side.bound = some limit → side.Keeps limit x) ∧
    ∀ limit, s.limit? side.exclusive = some limit → side.Clears limit x

/-- The bound on a side holds, with or without the limit itself by its flag. -/
def BoundsByFlag (s : Schema) (side : Side) (x : ℚ) : Prop :=
  ∀ limit, s.limit? side.bound = some limit →
    if s.get? side.exclusive = some (.bool true) then side.Clears limit x else side.Keeps limit x

def IsNumeric (s : Schema) (key : String) : Prop :=
  ∀ value, s.get? key = some value → ∃ n, value = .num n

variable {s : Schema} {side : Side} {x : ℚ}

theorem get?_prepared_bound (ms : Members) (side : Side) :
    (prepared ms).get? side.exclusive = ms.get? side.exclusive ∧
      (prepared ms).get? side.bound = ms.get? side.bound := by
  cases side
  · exact ⟨get?_prepared (by decide) (by decide), get?_prepared (by decide) (by decide)⟩
  · exact ⟨get?_prepared (by decide) (by decide), get?_prepared (by decide) (by decide)⟩

/-- A numeric exclusive bound is a flag in the form, and stands for the bound. -/
theorem get?_catalogEntry_bound (s : Schema) (side : Side) :
    s.catalogEntry.get? side.exclusive = (s.get? side.exclusive).map flagged ∧
      limit? s.catalogEntry side.bound = (s.limit? side.exclusive).or (s.limit? side.bound) := by
  cases s with
  | obj ms =>
    obtain ⟨hexclusive, hbound⟩ := get?_prepared_bound ms side
    rw [catalogEntry_obj_eq_adapt]
    simp only [limit?, Json.get?_obj, get?_adapt_exclusive side.keywords_mem,
      get?_adapt_bound side.keywords_mem, hexclusive, hbound, true_and]
    cases Members.get? ms side.exclusive with
    | none => rfl
    | some value => cases value <;> rfl
  | _ =>
    rw [catalogEntry_of_not_isObject rfl]
    exact ⟨rfl, rfl⟩

theorem exists_limit_iff (hn : s.IsNumeric side.exclusive) :
    s.catalogEntry.get? side.exclusive = some (.bool true) ↔
      ∃ limit, s.limit? side.exclusive = some limit := by
  rw [(get?_catalogEntry_bound s side).1, limit?]
  cases hv : s.get? side.exclusive with
  | none => simp
  | some value =>
    obtain ⟨n, rfl⟩ := hn value hv
    simp [flagged]

/-- In the form an exclusive bound counts alone, and an inclusive one only where there is none. -/
theorem boundsByFlag_catalogEntry (hn : s.IsNumeric side.exclusive) :
    BoundsByFlag s.catalogEntry side x ↔
      (∀ limit, s.limit? side.exclusive = some limit → side.Clears limit x) ∧
      (s.limit? side.exclusive = none →
        ∀ limit, s.limit? side.bound = some limit → side.Keeps limit x) := by
  have hflag := exists_limit_iff hn
  unfold BoundsByFlag
  rw [(get?_catalogEntry_bound s side).2]
  cases hexclusive : s.limit? side.exclusive with
  | none =>
    have hoff : s.catalogEntry.get? side.exclusive ≠ some (.bool true) := by
      simp [hflag, hexclusive]
    simp [hoff]
  | some limit =>
    have hon : s.catalogEntry.get? side.exclusive = some (.bool true) := by
      simp [hflag, hexclusive]
    simp [hon]

theorem Bounds.boundsByFlag (hn : s.IsNumeric side.exclusive) (h : s.Bounds side x) :
    BoundsByFlag s.catalogEntry side x :=
  (boundsByFlag_catalogEntry hn).mpr ⟨h.2, fun _ => h.1⟩

/-- The exclusive bound on a side leaves nothing to the inclusive one. -/
def IsTight (s : Schema) (side : Side) : Prop :=
  ∀ limit exclusive, s.limit? side.bound = some limit →
    s.limit? side.exclusive = some exclusive → side.Keeps limit exclusive

theorem IsTight.bounds (hn : s.IsNumeric side.exclusive) (h : s.IsTight side)
    (hx : BoundsByFlag s.catalogEntry side x) : s.Bounds side x := by
  obtain ⟨hclears, hkeeps⟩ := (boundsByFlag_catalogEntry hn).mp hx
  refine ⟨fun limit hlimit => ?_, hclears⟩
  cases hexclusive : s.limit? side.exclusive with
  | none => exact hkeeps hexclusive limit hlimit
  | some exclusive =>
    exact (h limit exclusive hlimit hexclusive).trans_clears (hclears exclusive hexclusive)

theorem exists_boundsByFlag_of_not_isTight (hn : s.IsNumeric side.exclusive)
    (h : ¬ s.IsTight side) : ∃ x, BoundsByFlag s.catalogEntry side x ∧ ¬ s.Bounds side x := by
  simp only [IsTight, not_forall] at h
  obtain ⟨limit, exclusive, hlimit, hexclusive, hloose⟩ := h
  obtain ⟨x, hclears, hnot⟩ := Side.exists_clears_of_not_keeps hloose
  refine ⟨x, (boundsByFlag_catalogEntry hn).mpr ⟨?_, ?_⟩, fun hx => hnot (hx.1 limit hlimit)⟩
  · rintro other hother
    cases hexclusive.symm.trans hother
    exact hclears
  · intro hnone
    cases hexclusive.symm.trans hnone

/-- The entry admits every number that the schema admits. On a side it admits no other exactly if
the exclusive bound there is as strict as the inclusive one; where it is not, the exclusive one
alone is left. -/
theorem boundsByFlag_iff_bounds (hn : ∀ side : Side, s.IsNumeric side.exclusive) :
    (∀ x side, BoundsByFlag s.catalogEntry side x ↔
      (∀ limit, s.limit? side.exclusive = some limit → side.Clears limit x) ∧
      (s.limit? side.exclusive = none →
        ∀ limit, s.limit? side.bound = some limit → side.Keeps limit x)) ∧
    (∀ x, (∀ side, s.Bounds side x) → ∀ side, BoundsByFlag s.catalogEntry side x) ∧
    (∀ side, (∀ x, BoundsByFlag s.catalogEntry side x ↔ s.Bounds side x) ↔ s.IsTight side) ∧
    ((∀ side, s.IsTight side) → ∀ x, (∀ side, BoundsByFlag s.catalogEntry side x) ↔
      ∀ side, s.Bounds side x) := by
  refine ⟨fun x side => boundsByFlag_catalogEntry (hn side), fun x h side =>
    (h side).boundsByFlag (hn side), fun side => ⟨fun h => ?_, fun h x => ?_⟩, fun h x => ?_⟩
  · by_contra hloose
    obtain ⟨x, hflag, hnot⟩ := exists_boundsByFlag_of_not_isTight (hn side) hloose
    exact hnot ((h x).mp hflag)
  · exact ⟨h.bounds (hn side), Bounds.boundsByFlag (hn side)⟩
  · exact ⟨fun hx side => (h side).bounds (hn side) (hx side),
      fun hx side => (hx side).boundsByFlag (hn side)⟩

def looseLower : Schema :=
  .obj [("minimum", .num (.int 5)), ("exclusiveMinimum", .num (.int 3))]

theorem looseLower_isNumeric (side : Side) : looseLower.IsNumeric side.exclusive := by
  intro value hvalue
  cases side with
  | lower =>
    cases hvalue
    exact ⟨_, rfl⟩
  | upper => cases hvalue

theorem boundsByFlag_looseLower :
    (∀ side : Side, looseLower.IsNumeric side.exclusive) ∧ looseLower.IsTight .upper ∧
      ∀ x, BoundsByFlag looseLower.catalogEntry .upper x ↔ looseLower.Bounds .upper x := by
  have htight : looseLower.IsTight .upper := by
    intro limit exclusive hlimit
    cases hlimit
  exact ⟨looseLower_isNumeric, htight,
    ((boundsByFlag_iff_bounds looseLower_isNumeric).2.2.1 .upper).mpr htight⟩

theorem not_bounds_looseLower :
    looseLower.catalogEntry =
      .obj [("minimum", .num (.int 3)), ("exclusiveMinimum", .bool true)] ∧
    (∀ side, BoundsByFlag looseLower.catalogEntry side 4) ∧ ¬ looseLower.Bounds .lower 4 := by
  have hentry : looseLower.catalogEntry =
      .obj [("minimum", .num (.int 3)), ("exclusiveMinimum", .bool true)] := by decide +kernel
  refine ⟨hentry, fun side => (boundsByFlag_catalogEntry (looseLower_isNumeric side)).mpr ?_,
    fun h => ?_⟩
  · cases side with
    | lower =>
      refine ⟨fun limit hlimit => ?_, fun hnone => (nomatch hnone)⟩
      cases hlimit
      norm_num [Number.value, Side.Clears]
    | upper => exact ⟨fun _ hlimit => (nomatch hlimit), fun _ _ hlimit => (nomatch hlimit)⟩
  · have hbelow : Side.lower.Keeps 5 4 := h.1 5 rfl
    norm_num [Side.Keeps] at hbelow

end Schema

end SchemaRoutes
