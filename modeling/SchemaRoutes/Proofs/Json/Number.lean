import SchemaRoutes.Json.Number
import SchemaRoutes.Proofs.Json.Double

/-! # Literals in range

A literal is scaled by a power of ten with a rounding before and after, so it is read if it lies far
enough below the greatest double. Integers of 64 bits are read digit by digit, without rounding.
-/

namespace SchemaRoutes.Number

open Double

variable {significand : ℕ} {exponent : ℤ} {d : Double} {n s : ℕ} {ds : List ℕ}

def ample : ℕ := (2 ^ 54 - 5) * 2 ^ 970

theorem cast_ample : (ample : ℚ) = (2 ^ 53 - 5 / 2) * 2 ^ greatestExponent := by
  rw [two_pow_greatestExponent, ample, Nat.cast_mul, Nat.cast_pow, Nat.cast_ofNat]
  generalize (2 : ℚ) ^ 970 = unit
  norm_num
  ring

theorem ample_mul_slack : (ample : ℚ) * (slack * slack) < overflow := by
  rw [cast_ample, cast_overflow, slack]
  have h : (0 : ℚ) < 2 ^ greatestExponent := zpow_pos two_pos _
  generalize (2 : ℚ) ^ greatestExponent = unit at *
  norm_num
  linarith

theorem pow_lt_overflow (h : n ≤ 308) : 10 ^ n < overflow :=
  (Nat.pow_le_pow_right (by decide) h).trans_lt (by decide +kernel)

theorem ample_lt_pow (h : 308 < n) : ample < 10 ^ n :=
  lt_of_lt_of_le (by decide +kernel) (Nat.pow_le_pow_right (by decide) h)

theorem powerOfTen_spec (h : n ≤ 308) : (powerOfTen n).magnitude ≤ (10 : ℚ) ^ n * slack ∧
    (10 : ℚ) ^ n / 2 ≤ (powerOfTen n).magnitude ∧ 0 < (powerOfTen n).significand := by
  have hpos : 0 < Nat.pow 10 n := Nat.pow_pos (by decide)
  have hlt : ((Nat.pow 10 n : ℕ) : ℚ) / (1 : ℕ) < overflow := by
    rw [Nat.cast_one, div_one]
    exact_mod_cast pow_lt_overflow h
  obtain ⟨d, hd⟩ := Option.isSome_iff_exists.mp (isSome_nearest Nat.one_pos hlt)
  have he : powerOfTen n = d := by rw [powerOfTen, hd, Option.getD_some]
  obtain ⟨hup, hlow⟩ := magnitude_nearest_one hpos hd
  simp only [Nat.pow_eq, Nat.cast_pow, Nat.cast_ofNat] at hup hlow
  rw [he]
  refine ⟨hup, hlow, Nat.pos_of_ne_zero fun hz => ?_⟩
  have hm : d.magnitude = 0 := by simp [magnitude, hz]
  have : (0 : ℚ) < 10 ^ n := by positivity
  linarith

/-- Dividing keeps below a bound that is far above one. -/
theorem magnitude_divideRepeatedly (h : d.magnitude ≤ 2 ^ 66) (n : ℕ) :
    (divideRepeatedly d n).magnitude ≤ 2 ^ 66 := by
  induction n generalizing d with
  | zero => exact h
  | succ n ih =>
    unfold divideRepeatedly
    split
    · exact h
    · refine ih ?_
      obtain ⟨-, hlow, hpos⟩ := powerOfTen_spec (le_refl 308)
      cases hd : d.divide (powerOfTen 308) with
      | none => exact h
      | some d' =>
        rw [Option.getD_some]
        have hle := magnitude_divide_le hpos hd
        have hbig : (8 : ℚ) ≤ 10 ^ 308 := by
          exact_mod_cast (by decide +kernel : 8 ≤ 10 ^ 308)
        generalize (10 : ℚ) ^ 308 = p at hlow hbig
        have hq : d.magnitude / (powerOfTen 308).magnitude ≤ 2 ^ 66 / 4 := by
          gcongr
          linarith
        linarith

theorem exists_nearest_significand (h : significand < significandLimit) :
    ∃ d, nearest significand 1 = some d ∧ d.magnitude ≤ significand * slack ∧
      (significand = 0 → d.isZero = true) := by
  rcases Nat.eq_zero_or_pos significand with rfl | hpos
  · exact ⟨zero, rfl, by simp, fun _ => rfl⟩
  have hlt : (significand : ℚ) / (1 : ℕ) < overflow := by
    rw [Nat.cast_one, div_one]
    exact_mod_cast h.trans (by decide +kernel)
  obtain ⟨d, hd⟩ := Option.isSome_iff_exists.mp (isSome_nearest Nat.one_pos hlt)
  exact ⟨d, hd, (magnitude_nearest_one hpos hd).1, fun h => absurd h hpos.ne'⟩

theorem isSome_multiply_powerOfTen (hd : d.magnitude ≤ significand * slack) (hn : n ≤ 308)
    (h : (significand : ℚ) * 10 ^ n ≤ ample) : (d.multiply (powerOfTen n)).isSome = true := by
  have hslack : (0 : ℚ) < slack := by norm_num [slack]
  refine isSome_multiply ?_
  calc d.magnitude * (powerOfTen n).magnitude
      ≤ (significand * slack) * (10 ^ n * slack) :=
        mul_le_mul hd (powerOfTen_spec hn).1 (magnitude_nonneg _)
          (mul_nonneg (Nat.cast_nonneg _) hslack.le)
    _ = significand * 10 ^ n * (slack * slack) := by ring
    _ ≤ ample * (slack * slack) := mul_le_mul_of_nonneg_right h (mul_pos hslack hslack).le
    _ < overflow := ample_mul_slack

theorem isSome_divide_powerOfTen (hd : d.magnitude ≤ 2 ^ 66) (hn : n ≤ 308) :
    (d.divide (powerOfTen n)).isSome = true := by
  obtain ⟨-, hlow, hpos⟩ := powerOfTen_spec hn
  have hone : (1 : ℚ) ≤ 10 ^ n := one_le_pow₀ (by norm_num)
  refine isSome_divide hpos ?_
  calc d.magnitude / (powerOfTen n).magnitude ≤ 2 ^ 66 / (1 / 2) := by
        gcongr
        linarith
    _ = (2 ^ 67 : ℕ) := by norm_num
    _ < overflow := by exact_mod_cast (by decide +kernel : 2 ^ 67 < overflow)

theorem isSome_scale? (hs : significand < significandLimit)
    (h : (significand : ℚ) * 10 ^ exponent ≤ ample) :
    (scale? significand exponent).isSome = true := by
  obtain ⟨start, hstart, hle, hzero⟩ := exists_nearest_significand hs
  simp only [scale?, hstart, Option.getD_some]
  split
  · next hge =>
    obtain ⟨e, rfl⟩ := Int.eq_ofNat_of_zero_le hge
    rw [zpow_natCast] at h
    rw [Int.toNat_natCast]
    split
    · next hsmall => exact isSome_multiply_powerOfTen hle (by omega) h
    · next hlarge =>
      have hz : significand = 0 := by
        by_contra hne
        have hle : 10 ^ e ≤ significand * 10 ^ e :=
          Nat.le_mul_of_pos_left _ (Nat.pos_of_ne_zero hne)
        have h' : significand * 10 ^ e ≤ ample := by exact_mod_cast h
        exact absurd (hle.trans h') (not_le.mpr (ample_lt_pow (by omega)))
      rw [if_pos (hzero hz)]
      rfl
  · have hstart : start.magnitude ≤ 2 ^ 66 := by
      have : (significand : ℚ) ≤ 2 ^ 64 := by exact_mod_cast hs.le
      unfold slack at hle
      linarith
    exact isSome_divide_powerOfTen (magnitude_divideRepeatedly hstart _) (by omega)

def append (n : ℕ) (ds : List ℕ) : ℕ := ds.foldl (fun n d => n * 10 + d) n

theorem ofDigits_append (ds es : List ℕ) : ofDigits (ds ++ es) = append (ofDigits ds) es :=
  List.foldl_append

theorem mul_pow_le_append (n : ℕ) (ds : List ℕ) : n * 10 ^ ds.length ≤ append n ds := by
  induction ds generalizing n with
  | nil => simp [append]
  | cons d ds ih =>
    calc n * 10 ^ (ds.length + 1) = n * 10 * 10 ^ ds.length := by ring
      _ ≤ (n * 10 + d) * 10 ^ ds.length := by gcongr; omega
      _ ≤ append n (d :: ds) := ih _

theorem absorb_of_lt (h : append n ds < significandLimit) : absorb n ds = (append n ds, []) := by
  induction ds generalizing n with
  | nil => rfl
  | cons d ds ih =>
    have hle := mul_pow_le_append (n * 10 + d) ds
    have hpos : 0 < 10 ^ ds.length := Nat.pow_pos (by decide)
    have hlt : n * 10 + d < significandLimit :=
      (Nat.le_mul_of_pos_right _ hpos).trans_lt (hle.trans_lt h)
    rw [absorb, if_pos hlt]
    exact ih h

/-- What is taken up fits, and it makes up the leading digits of the whole. -/
theorem absorb_spec (hn : n < significandLimit) (ds : List ℕ) :
    (absorb n ds).1 < significandLimit ∧ (absorb n ds).2.length ≤ ds.length ∧
      (absorb n ds).1 * 10 ^ (absorb n ds).2.length ≤ append n ds := by
  induction ds generalizing n with
  | nil => exact ⟨hn, le_refl _, mul_pow_le_append n []⟩
  | cons d ds ih =>
    rw [absorb]
    split
    · next hlt =>
      obtain ⟨hfits, hlen, hle⟩ := ih hlt
      exact ⟨hfits, hlen.trans (Nat.le_succ _), hle⟩
    · exact ⟨hn, le_refl _, mul_pow_le_append n (d :: ds)⟩

namespace Literal

variable {l : Literal}

def power : Option (Bool × List ℕ) → ℤ
  | none => 0
  | some (below, ds) => if below then -(ofDigits ds : ℤ) else ofDigits ds

def magnitude (l : Literal) : ℚ :=
  ofDigits (l.whole ++ l.fraction) * 10 ^ (power l.exponent - l.fraction.length)

/-- A literal of moderate size is read, with as many of its digits as there is room for. -/
theorem isSome_double? (hw : ofDigits l.whole < significandLimit)
    (hs : power l.exponent < exponentLimit) (hm : l.magnitude ≤ ample) :
    l.double?.isSome = true := by
  obtain ⟨hfits, hlen, hle⟩ := absorb_spec hw l.fraction
  have hscale : (scale? (absorb (ofDigits l.whole) l.fraction).1
      (power l.exponent - (l.fraction.length - (absorb (ofDigits l.whole) l.fraction).2.length : ℕ))
      ).isSome = true := by
    refine isSome_scale? hfits (le_trans ?_ hm)
    rw [magnitude, ofDigits_append]
    generalize absorb (ofDigits l.whole) l.fraction = r at *
    have he : power l.exponent - (l.fraction.length - r.2.length : ℕ) =
        r.2.length + (power l.exponent - l.fraction.length) := by omega
    rw [he, zpow_add₀ (by norm_num), zpow_natCast, ← mul_assoc]
    gcongr
    exact_mod_cast hle
  unfold double?
  rw [show absorb 0 l.whole = (ofDigits l.whole, []) from absorb_of_lt hw]
  simp only [List.length_nil, Nat.cast_zero, zero_sub]
  unfold power at hs hscale
  split
  · next hx =>
    simpa only [hx, zero_sub] using hscale
  · next below ds hx =>
    simp only [hx] at hs hscale
    cases below with
    | true =>
      split
      · simp
      · simpa [sub_eq_add_neg, add_comm] using hscale
    | false =>
      simp only [Bool.false_eq_true, if_false] at hs hscale ⊢
      rw [if_neg (by omega)]
      simpa [sub_eq_add_neg, add_comm] using hscale

end Literal

end SchemaRoutes.Number
