import Mathlib.Tactic.Linarith
import Mathlib.Tactic.Ring
import Mathlib.Tactic.NormNum
import Mathlib.Tactic.FieldSimp
import Mathlib.Tactic.Positivity
import Mathlib.Data.Rat.Cast.Order
import Mathlib.Algebra.Order.Field.Power
import SchemaRoutes.Json.Double

/-! # The error of rounding

Rounding moves a number by half a unit in the last place, which for a number of full precision is
a small part of the number itself. So a bound on the exact result of a product or a quotient keeps
it in range.
-/

namespace SchemaRoutes.Double

def magnitude (d : Double) : ℚ := d.significand * 2 ^ d.exponent

variable {num den : ℕ} {e : ℤ} {d a b : Double}

theorem magnitude_nonneg (d : Double) : 0 ≤ d.magnitude := by unfold magnitude; positivity

@[simp] theorem magnitude_zero : zero.magnitude = 0 := by simp [magnitude, zero]

theorem pow_toNat_div {b : ℚ} (hb : b ≠ 0) (e : ℤ) : b ^ e.toNat / b ^ (-e).toNat = b ^ e := by
  have he : (e.toNat : ℤ) - (-e).toNat = e := by omega
  rw [← zpow_natCast, ← zpow_natCast, ← zpow_sub₀ hb, he]

theorem cast_mul_pow_div (num den : ℕ) (e : ℤ) :
    ((num * Nat.pow 2 (-e).toNat : ℕ) : ℚ) / (den * Nat.pow 2 e.toNat : ℕ) =
      num / den / 2 ^ e := by
  simp only [Nat.pow_eq, Nat.cast_mul, Nat.cast_pow, Nat.cast_ofNat]
  rw [mul_div_mul_comm, ← pow_toNat_div two_ne_zero e]
  simp [div_eq_mul_inv]

/-- Rounding a quotient moves it by one half at most. -/
theorem roundQuotient_spec (num : ℕ) (hd : 0 < den) :
    2 * num ≤ 2 * (den * roundQuotient num den) + den ∧
      2 * (den * roundQuotient num den) ≤ 2 * num + den := by
  have hm := Nat.div_add_mod num den
  have hlt := Nat.mod_lt num hd
  have hup : den * (num / den + 1) = den * (num / den) + den := Nat.mul_succ _ _
  unfold roundQuotient
  dsimp only
  split_ifs with h₁ h₂
  · omega
  · omega
  · rcases Nat.mod_two_eq_zero_or_one (num / den) with h | h
    · rw [h, Nat.add_zero]
      omega
    · rw [h]
      omega

theorem cast_log2_spec {n : ℕ} (hn : 0 < n) :
    (2 : ℚ) ^ Nat.log2 n ≤ n ∧ (n : ℚ) < 2 ^ Nat.log2 n * 2 := by
  constructor
  · exact_mod_cast Nat.log2_self_le hn.ne'
  · rw [← pow_succ]
    exact_mod_cast Nat.lt_log2_self

theorem div_scaled_lt_iff (num : ℕ) (hd : 0 < den) (n : ℕ) (e : ℤ) :
    num * Nat.pow 2 (-e).toNat / (den * Nat.pow 2 e.toNat) < n ↔ (num : ℚ) / den < n * 2 ^ e := by
  have hscaled : 0 < den * Nat.pow 2 e.toNat := Nat.mul_pos hd (Nat.pow_pos (by decide))
  have hp : (0 : ℚ) < 2 ^ e := by positivity
  have hs : (0 : ℚ) < (den * Nat.pow 2 e.toNat : ℕ) := by exact_mod_cast hscaled
  rw [Nat.div_lt_iff_lt_mul hscaled, ← div_lt_iff₀ hp, ← cast_mul_pow_div, div_lt_iff₀ hs]
  exact_mod_cast Iff.rfl

/-- The exponent that the binary logarithms give is at most one too high. -/
theorem log2_sub_log2_spec (hn : 0 < num) (hd : 0 < den)
    (he : (Nat.log2 num : ℤ) - Nat.log2 den - 52 = e) :
    2 ^ 51 * 2 ^ e ≤ (num : ℚ) / den ∧ (num : ℚ) / den < 2 ^ 53 * 2 ^ e := by
  have hq : (0 : ℚ) < den := by exact_mod_cast hd
  have hp : (0 : ℚ) < 2 ^ e := by positivity
  have hpow : (2 : ℚ) ^ e * 2 ^ 52 * 2 ^ Nat.log2 den = 2 ^ Nat.log2 num := by
    rw [← zpow_natCast, ← zpow_natCast, ← zpow_natCast, ← zpow_add₀ two_ne_zero,
      ← zpow_add₀ two_ne_zero]
    congr 1
    push_cast
    omega
  obtain ⟨hnum, hnum'⟩ := cast_log2_spec hn
  obtain ⟨hden, hden'⟩ := cast_log2_spec hd
  constructor
  · rw [le_div_iff₀ hq]
    nlinarith
  · rw [div_lt_iff₀ hq]
    nlinarith

/-- The exponent is the one that leaves a full significand, as far as exponents go down. -/
theorem exponentFor_spec (hn : 0 < num) (hd : 0 < den) (he : exponentFor num den = e) :
    (num : ℚ) / den < 2 ^ 53 * 2 ^ e ∧
      (e = leastExponent ∨ 2 ^ 52 * 2 ^ e ≤ (num : ℚ) / den) := by
  obtain ⟨estimate, hest⟩ : ∃ e, (Nat.log2 num : ℤ) - Nat.log2 den - 52 = e := ⟨_, rfl⟩
  obtain ⟨hlow, hhigh⟩ := log2_sub_log2_spec hn hd hest
  have hfull := div_scaled_lt_iff num hd (Nat.pow 2 52) estimate
  have hprev : (2 : ℚ) ^ estimate = 2 * 2 ^ (estimate - 1) := by
    rw [zpow_sub_one₀ two_ne_zero]
    ring
  obtain ⟨e', hlt, hle, rfl⟩ : ∃ e', (num : ℚ) / den < 2 ^ 53 * 2 ^ e' ∧
      2 ^ 52 * 2 ^ e' ≤ (num : ℚ) / den ∧ max leastExponent e' = e := by
    simp only [exponentFor, hest, hfull] at he
    simp only [Nat.pow_eq, Nat.cast_pow, Nat.cast_ofNat] at he
    split at he
    · next hbelow => exact ⟨_, by linarith, by linarith, he⟩
    · next habove => exact ⟨_, hhigh, not_lt.mp habove, he⟩
  constructor
  · refine hlt.trans_le ?_
    gcongr
    · norm_num
    · exact le_max_right _ _
  · rcases le_total leastExponent e' with h | h
    · rw [max_eq_right h]
      exact .inr hle
    · exact .inl (max_eq_left h)

theorem roundAt_spec (num : ℕ) (hd : 0 < den) (e : ℤ) :
    (roundAt num den e : ℚ) * 2 ^ e ≤ num / den + 2 ^ e / 2 ∧
      (num : ℚ) / den ≤ roundAt num den e * 2 ^ e + 2 ^ e / 2 := by
  have hscaled : 0 < den * Nat.pow 2 e.toNat := Nat.mul_pos hd (Nat.pow_pos (by decide))
  have hp : (0 : ℚ) < 2 ^ e := by positivity
  have hquot := cast_mul_pow_div num den e
  obtain ⟨hup, hlow⟩ := roundQuotient_spec (num * Nat.pow 2 (-e).toNat) hscaled
  unfold roundAt
  generalize num * Nat.pow 2 (-e).toNat = a at *
  generalize den * Nat.pow 2 e.toNat = b at *
  have hb : (0 : ℚ) < b := by exact_mod_cast hscaled
  have hup' : 2 * (a : ℚ) ≤ 2 * (b * roundQuotient a b) + b := by exact_mod_cast hup
  have hlow' : 2 * ((b : ℚ) * roundQuotient a b) ≤ 2 * a + b := by exact_mod_cast hlow
  have hx : (num : ℚ) / den = a / b * 2 ^ e := by rw [hquot, div_mul_cancel₀ _ hp.ne']
  rw [hx]
  constructor
  · have : (roundQuotient a b : ℚ) ≤ a / b + 1 / 2 := by
      rw [div_add' _ _ _ hb.ne', le_div_iff₀ hb]
      linarith
    nlinarith
  · have : (a : ℚ) / b ≤ roundQuotient a b + 1 / 2 := by
      rw [div_le_iff₀ hb]
      linarith
    nlinarith

/-- A significand that does not fit any more is halved. -/
theorem nearest_eq (hn : 0 < num) (he : exponentFor num den = e) :
    nearest num den =
      if roundAt num den e = 2 ^ 53 then
        if greatestExponent < e + 1 then none else some ⟨false, 2 ^ 52, e + 1⟩
      else if greatestExponent < e then none else some ⟨false, roundAt num den e, e⟩ := by
  subst he
  unfold nearest
  rw [if_neg hn.ne']
  simp only [Nat.pow_eq]
  split <;> rfl

/-- What is nearest is half a unit in the last place away at most. -/
theorem magnitude_of_nearest (hn : 0 < num) (hd : 0 < den) (h : nearest num den = some d) :
    ∃ e : ℤ, (e = leastExponent ∨ 2 ^ 52 * 2 ^ e ≤ (num : ℚ) / den) ∧
      d.magnitude ≤ num / den + 2 ^ e / 2 ∧ (num : ℚ) / den ≤ d.magnitude + 2 ^ e / 2 := by
  obtain ⟨e, he⟩ : ∃ e, exponentFor num den = e := ⟨_, rfl⟩
  refine ⟨e, (exponentFor_spec hn hd he).2, ?_⟩
  have hm : d.magnitude = roundAt num den e * 2 ^ e := by
    rw [nearest_eq hn he] at h
    split at h
    · next hs =>
      split at h
      · cases h
      · cases h
        rw [hs, magnitude, zpow_add_one₀ two_ne_zero]
        norm_num
        ring
    · split at h
      · cases h
      · cases h
        rfl
  rw [hm]
  exact roundAt_spec num hd e

/-- Half a unit in the last place below the first power of two that is out of range. -/
def overflow : ℕ := (2 ^ 54 - 1) * 2 ^ 970

theorem two_pow_greatestExponent : (2 : ℚ) ^ greatestExponent = 2 ^ 970 * 2 := by
  rw [← pow_succ, ← zpow_natCast]
  rfl

theorem cast_overflow : (overflow : ℚ) = (2 ^ 53 - 1 / 2) * 2 ^ greatestExponent := by
  rw [two_pow_greatestExponent, overflow, Nat.cast_mul, Nat.cast_pow, Nat.cast_ofNat]
  generalize (2 : ℚ) ^ 970 = unit
  norm_num
  ring

theorem isSome_nearest (hd : 0 < den) (h : (num : ℚ) / den < overflow) :
    (nearest num den).isSome = true := by
  rcases Nat.eq_zero_or_pos num with rfl | hn
  · rfl
  obtain ⟨e, he⟩ : ∃ e, exponentFor num den = e := ⟨_, rfl⟩
  have hbetween : leastExponent ≤ greatestExponent := by decide
  rw [nearest_eq hn he]
  rw [cast_overflow] at h
  generalize greatestExponent = greatest at *
  have hp : (0 : ℚ) < 2 ^ greatest := zpow_pos two_pos _
  have hle : e ≤ greatest := by
    rcases (exponentFor_spec hn hd he).2 with rfl | hfull
    · exact hbetween
    · by_contra hlt
      have hpow : (2 : ℚ) ^ (greatest + 1) ≤ 2 ^ e := by
        gcongr
        · norm_num
        · omega
      rw [zpow_add_one₀ two_ne_zero] at hpow
      linarith
  split
  · next hs =>
    -- A carry at the greatest exponent takes a number beyond the bound.
    have hne : e ≠ greatest := by
      rintro rfl
      have hup := (roundAt_spec num hd e).1
      rw [hs] at hup
      push_cast at hup
      linarith
    rw [if_neg (by omega)]
    rfl
  · rw [if_neg (by omega)]
    rfl

theorem magnitude_nearest_le (hd : 0 < den) (h : nearest num den = some d) :
    d.magnitude ≤ 2 * (num / den) + 1 := by
  rcases Nat.eq_zero_or_pos num with rfl | hn
  · cases h
    simp
  · obtain ⟨e, he, hup, -⟩ := magnitude_of_nearest hn hd h
    have hx : (0 : ℚ) ≤ num / den := by positivity
    rcases he with rfl | he
    · have : (2 : ℚ) ^ leastExponent ≤ 1 := zpow_le_one_of_nonpos₀ one_le_two (by decide)
      linarith
    · have : (0 : ℚ) < 2 ^ e := zpow_pos two_pos e
      linarith

/-- What the rounding of a number of full precision makes of it at most. -/
def slack : ℚ := 1 + 1 / 2 ^ 53

theorem magnitude_nearest_one (hn : 0 < num) (h : nearest num 1 = some d) :
    d.magnitude ≤ num * slack ∧ (num : ℚ) / 2 ≤ d.magnitude := by
  obtain ⟨e, he, hup, hlow⟩ := magnitude_of_nearest hn Nat.one_pos h
  have hx : (1 : ℚ) ≤ num := by exact_mod_cast hn
  rw [Nat.cast_one, div_one] at he hup hlow
  have hunit : 2 ^ 52 * (2 : ℚ) ^ e ≤ num := by
    rcases he with rfl | he
    · have : (2 : ℚ) ^ leastExponent ≤ 2 ^ (-52 : ℤ) := by
        gcongr
        · norm_num
        · decide
      norm_num at this
      linarith
    · exact he
  unfold slack
  constructor <;> linarith

theorem multiply_eq (a b : Double) : ∃ num den : ℕ, 0 < den ∧
    (num : ℚ) / den = a.magnitude * b.magnitude ∧
      a.multiply b = (nearest num den).map (withSign (a.negative != b.negative)) := by
  refine ⟨_, Nat.pow 2 _, Nat.pow_pos (by decide), ?_, rfl⟩
  have h := cast_mul_pow_div (a.significand * b.significand) 1 (-(a.exponent + b.exponent))
  rw [neg_neg, Nat.one_mul, zpow_neg, zpow_add₀ two_ne_zero] at h
  rw [h, magnitude, magnitude]
  push_cast
  field_simp

theorem divide_eq (a : Double) (hb : 0 < b.significand) : ∃ num den : ℕ, 0 < den ∧
    (num : ℚ) / den = a.magnitude / b.magnitude ∧
      a.divide b = (nearest num den).map (withSign (a.negative != b.negative)) := by
  refine ⟨_, b.significand * Nat.pow 2 _, Nat.mul_pos hb (Nat.pow_pos (by decide)), ?_, rfl⟩
  have h := cast_mul_pow_div a.significand b.significand (-(a.exponent - b.exponent))
  rw [neg_neg, zpow_neg, zpow_sub₀ two_ne_zero] at h
  rw [h, magnitude, magnitude]
  field_simp

theorem isSome_multiply (h : a.magnitude * b.magnitude < overflow) :
    (a.multiply b).isSome = true := by
  obtain ⟨num, den, hd, hq, he⟩ := multiply_eq a b
  rw [he, Option.isSome_map]
  exact isSome_nearest hd (hq ▸ h)

theorem isSome_divide (hb : 0 < b.significand) (h : a.magnitude / b.magnitude < overflow) :
    (a.divide b).isSome = true := by
  obtain ⟨num, den, hd, hq, he⟩ := divide_eq a hb
  rw [he, Option.isSome_map]
  exact isSome_nearest hd (hq ▸ h)

theorem magnitude_divide_le (hb : 0 < b.significand) (h : a.divide b = some d) :
    d.magnitude ≤ 2 * (a.magnitude / b.magnitude) + 1 := by
  obtain ⟨num, den, hd, hq, he⟩ := divide_eq a hb
  obtain ⟨d', hn, rfl⟩ := Option.map_eq_some_iff.mp (he.symm.trans h)
  rw [← hq]
  exact magnitude_nearest_le (d := d') hd hn

end SchemaRoutes.Double
