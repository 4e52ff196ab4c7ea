import Mathlib.Data.List.TakeWhile
import SchemaRoutes.Json.Text
import SchemaRoutes.Proofs.Json.Number

/-! # The text of a number is read

The text of a double is a literal that denotes a number which rounds to the double, so it is within
the range in which literals are read.
-/

namespace SchemaRoutes

namespace Number

variable {ds es cs : List Char}

def IsDigits (cs : List Char) : Prop := ∀ c ∈ cs, c.isDigit = true

def digitValues (cs : List Char) : List ℕ := cs.map fun c => c.toNat - '0'.toNat

@[simp] theorem digitValues_eq_nil_iff : digitValues cs = [] ↔ cs = [] := List.map_eq_nil_iff

@[simp] theorem length_digitValues : (digitValues cs).length = cs.length := List.length_map _

theorem digitValues_append :
    digitValues (ds ++ es) = digitValues ds ++ digitValues es := List.map_append

def EndsDigits (cs : List Char) : Prop := ∀ c ∈ cs.head?, c.isDigit = false

theorem IsDigits.append (hd : IsDigits ds) (he : IsDigits es) : IsDigits (ds ++ es) :=
  List.forall_mem_append.mpr ⟨hd, he⟩

theorem isDigits_toDigits (n : ℕ) : IsDigits (Nat.toDigits 10 n) :=
  fun _ => Nat.isDigit_of_mem_toDigits (by decide) (by decide)

theorem isDigits_zeros (n : ℕ) : IsDigits (List.replicate n '0') := by
  intro c hc
  rw [List.eq_of_mem_replicate hc]
  rfl

theorem endsDigits_nil : EndsDigits [] := nofun

theorem EndsDigits.takeWhile (h : EndsDigits cs) : cs.takeWhile Char.isDigit = [] := by
  cases cs with
  | nil => rfl
  | cons c cs => exact List.takeWhile_cons_of_neg (by simpa using h c rfl)

theorem EndsDigits.dropWhile (h : EndsDigits cs) : cs.dropWhile Char.isDigit = cs := by
  cases cs with
  | nil => rfl
  | cons c cs => exact List.dropWhile_cons_of_neg (by simpa using h c rfl)

theorem afterDigits_append (hd : IsDigits ds) (hc : EndsDigits cs) :
    afterDigits (ds ++ cs) = cs := by
  rw [afterDigits, List.dropWhile_append_of_pos hd, hc.dropWhile]

theorem digits_append (hd : IsDigits ds) (hc : EndsDigits cs) :
    digits (ds ++ cs) = digitValues ds := by
  rw [digits, List.takeWhile_append_of_pos hd, hc.takeWhile, List.append_nil,
    digitValues, ← List.filterMap_eq_map]
  exact List.filterMap_congr fun c hc => by simp [digit?, hd c hc]

theorem digits_eq (h : IsDigits ds) : digits ds = digitValues ds := by
  simpa using digits_append h endsDigits_nil

theorem afterDigits_eq (h : IsDigits ds) : afterDigits ds = [] := by
  simpa using afterDigits_append h endsDigits_nil

theorem ofDigits_digitValues (cs : List Char) :
    ofDigits (digitValues cs) = Nat.ofDigitChars 10 cs 0 := by
  rw [ofDigits, digitValues, List.foldl_map, Nat.ofDigitChars_eq_foldl]
  simp only [Nat.mul_comm]

theorem ofDigitChars_lt (h : IsDigits ds) : Nat.ofDigitChars 10 ds 0 < 10 ^ ds.length := by
  induction ds with
  | nil => simp
  | cons c ds ih =>
    obtain ⟨hc, hds⟩ := List.forall_mem_cons.mp h
    have hlt : c.toNat - '0'.toNat < 10 := by
      simp only [Char.isDigit, Bool.and_eq_true, decide_eq_true_eq, UInt32.le_iff_toNat_le] at hc
      exact Nat.sub_lt_left_of_lt_add hc.1 (Nat.lt_succ_of_le hc.2)
    rw [Nat.ofDigitChars_cons, Nat.ofDigitChars_eq_ofDigitChars_zero, List.length_cons, pow_succ]
    have := ih hds
    nlinarith

theorem ofDigits_lt_significandLimit (h : IsDigits ds) (hl : ds.length ≤ 16) :
    ofDigits (digitValues ds) < significandLimit := by
  rw [ofDigits_digitValues]
  calc Nat.ofDigitChars 10 ds 0 < 10 ^ ds.length := ofDigitChars_lt h
    _ ≤ 10 ^ 16 := Nat.pow_le_pow_right (by decide) hl
    _ < significandLimit := by decide

theorem one_le_of_isDigit {c : Char} (hc : c.isDigit = true) (hz : c ≠ '0') :
    1 ≤ c.toNat - '0'.toNat := by
  by_contra h
  simp only [Char.isDigit, Bool.and_eq_true, decide_eq_true_eq, UInt32.le_iff_toNat_le] at hc
  exact hz (Char.toNat_inj.mp (le_antisymm (Nat.sub_eq_zero_iff_le.mp (by omega)) hc.1))

theorem validWhole_cons {c : Char} (hc : c.isDigit = true) (hz : c ≠ '0') (cs : List Char) :
    Literal.validWhole (digitValues (c :: cs)) = true := by
  cases cs with
  | nil => rfl
  | cons c' cs =>
    exact bne_iff_ne.mpr (Nat.one_le_iff_ne_zero.mp (one_le_of_isDigit hc hz))

namespace Literal

variable {whole fraction : List Char} {x : Option (Bool × List ℕ)}

theorem exponentOf?_signed (h : IsDigits ds) (hne : ds ≠ []) (below : Bool) :
    exponentOf? ('e' :: (if below then '-' else '+') :: ds) =
      some (some (below, digitValues ds)) := by
  cases below <;> simp [exponentOf?, digits_eq h, afterDigits_eq h, hne]

/-- The text behind a sign is a literal, no integer, with some power of ten and a magnitude. -/
def Spells (negative : Bool) (cs : List Char) (shift : ℤ) (x : ℚ) : Prop :=
  ∃ l, unsigned? negative cs = some l ∧ l.isInteger = false ∧ ofDigits l.whole < significandLimit ∧
    power l.exponent = shift ∧ l.magnitude = x

/-- A literal is cut at its point and at what follows its fraction. -/
theorem spells_of_fraction (negative : Bool) (hw : IsDigits whole)
    (hv : validWhole (digitValues whole) = true) (hl : whole.length ≤ 16) (hf : IsDigits fraction)
    (hne : fraction ≠ []) (hc : EndsDigits cs) (hx : exponentOf? cs = some x) :
    Spells negative (whole ++ '.' :: (fraction ++ cs)) (power x)
      (Nat.ofDigitChars 10 (whole ++ fraction) 0 * 10 ^ (power x - fraction.length)) := by
  have hpoint : EndsDigits ('.' :: (fraction ++ cs)) := by
    rintro c ⟨⟩
    rfl
  refine ⟨⟨negative, digitValues whole, digitValues fraction, true, x⟩, ?_, rfl,
    ofDigits_lt_significandLimit hw hl, rfl, ?_⟩
  · simp [unsigned?, digits_append hw hpoint, afterDigits_append hw hpoint, digits_append hf hc,
      afterDigits_append hf hc, hv, hne, hx]
  · rw [magnitude, ← digitValues_append, ofDigits_digitValues, length_digitValues]

theorem spells_of_point (negative : Bool) (hw : IsDigits whole)
    (hv : validWhole (digitValues whole) = true) (hl : whole.length ≤ 16) (hf : IsDigits fraction)
    (hne : fraction ≠ []) :
    Spells negative (whole ++ '.' :: fraction) 0
      (Nat.ofDigitChars 10 (whole ++ fraction) 0 * 10 ^ (-(fraction.length : ℤ))) := by
  have h := spells_of_fraction negative hw hv hl hf hne endsDigits_nil (x := none) rfl
  rwa [List.append_nil, power, zero_sub] at h

theorem unsigned?_of_whole (negative : Bool) (hw : IsDigits whole)
    (hv : validWhole (digitValues whole) = true) (hc : EndsDigits cs)
    (hp : ∀ rest, cs ≠ '.' :: rest) (hx : exponentOf? cs = some x) :
    unsigned? negative (whole ++ cs) = some ⟨negative, digitValues whole, [], false, x⟩ := by
  simp only [unsigned?, digits_append hw hc, afterDigits_append hw hc, hv, Bool.not_true,
    Bool.false_eq_true, if_false, hx]
  rfl

end Literal

end Number

namespace Decimal

open Number

variable {d : Decimal}

/-- The digits of a nonzero number, from the first that counts. -/
structure Proper (d : Decimal) : Prop where
  digits : IsDigits d.digits
  leading : ∃ c cs, d.digits = c :: cs ∧ c ≠ '0'

def magnitude (d : Decimal) : ℚ :=
  Nat.ofDigitChars 10 d.digits 0 * 10 ^ (d.exponent + 1 - d.digits.length)

theorem Proper.spells_scientific (h : d.Proper) (he : d.exponent < -5 ∨ 15 < d.exponent)
    (negative : Bool) : Literal.Spells negative d.text d.exponent d.magnitude := by
  obtain ⟨hd, c, cs, hc, -⟩ := h
  rw [hc] at hd
  obtain ⟨hdc, hdcs⟩ := List.forall_mem_cons.mp hd
  have hone : IsDigits [c] := by simpa [IsDigits] using hdc
  have hx := Literal.exponentOf?_signed (isDigits_toDigits d.exponent.natAbs)
    Nat.toDigits_ne_nil (decide (d.exponent < 0))
  have hpower : Literal.power (some (decide (d.exponent < 0),
      digitValues (Nat.toDigits 10 d.exponent.natAbs))) = d.exponent := by
    simp only [Literal.power, ofDigits_digitValues, Nat.ofDigitChars_ten_toDigits,
      decide_eq_true_eq]
    split_ifs <;> omega
  simp only [decide_eq_true_eq] at hx
  have hends : EndsDigits ('e' :: (if d.exponent < 0 then '-' else '+') ::
      Nat.toDigits 10 d.exponent.natAbs) := by
    rintro c ⟨⟩
    rfl
  unfold text magnitude
  rw [if_pos he, hc]
  cases cs with
  | nil =>
    refine ⟨_, Literal.unsigned?_of_whole negative hone rfl hends (by simp) hx, rfl,
      ofDigits_lt_significandLimit hone (by simp), hpower, ?_⟩
    simp [Literal.magnitude, hpower, ofDigits_digitValues]
  | cons c' cs =>
    have hs := Literal.spells_of_fraction negative hone rfl (by simp) hdcs
      (List.cons_ne_nil _ _) hends hx
    have hplace : d.exponent + 1 - (c :: c' :: cs).length = d.exponent - (c' :: cs).length := by
      simp
    rw [hplace]
    rwa [hpower] at hs

theorem Proper.spells_lt_one (h : d.Proper) (hlow : -5 ≤ d.exponent) (hneg : d.exponent < 0)
    (negative : Bool) : Literal.Spells negative d.text 0 d.magnitude := by
  obtain ⟨hd, c, cs, hc, -⟩ := h
  have hs := Literal.spells_of_point negative (isDigits_zeros 1) rfl (by simp)
    ((isDigits_zeros (d.exponent.natAbs - 1)).append hd) (by simp [hc])
  unfold text magnitude
  rw [if_neg (by omega), if_pos hneg]
  have hplace : -((List.replicate (d.exponent.natAbs - 1) '0' ++ d.digits).length : ℤ) =
      d.exponent + 1 - d.digits.length := by
    simp only [List.length_append, List.length_replicate]
    omega
  rw [hplace, Nat.ofDigitChars_append, Nat.ofDigitChars_append, Nat.ofDigitChars_replicate_zero,
    Nat.ofDigitChars_replicate_zero, Nat.mul_zero] at hs
  exact hs

theorem Proper.spells_whole (h : d.Proper) (hpos : 0 ≤ d.exponent) (hhigh : d.exponent ≤ 15)
    (negative : Bool) : Literal.Spells negative d.text 0 d.magnitude := by
  obtain ⟨hd, c, cs, hc, hz⟩ := h
  obtain ⟨e, he⟩ := Int.eq_ofNat_of_zero_le hpos
  have htake : IsDigits (d.digits.take (e + 1)) := fun c hc => hd c (List.mem_of_mem_take hc)
  have hdrop : IsDigits (d.digits.drop (e + 1)) := fun c hc => hd c (List.mem_of_mem_drop hc)
  have hw := htake.append (isDigits_zeros (e + 1 - (d.digits.take (e + 1)).length))
  have hl : (d.digits.take (e + 1) ++
      List.replicate (e + 1 - (d.digits.take (e + 1)).length) '0').length ≤ 16 := by
    simp
    omega
  have hv : Literal.validWhole (digitValues (d.digits.take (e + 1) ++
      List.replicate (e + 1 - (d.digits.take (e + 1)).length) '0')) = true := by
    rw [hc, List.take_succ_cons, List.cons_append]
    exact validWhole_cons (hd c (hc ▸ .head _)) hz _
  unfold text magnitude
  rw [if_neg (by omega), if_neg (by omega), he, Int.toNat_natCast]
  dsimp only
  by_cases hnil : d.digits.drop (e + 1) = []
  · -- All digits are whole, and zeros follow.
    have hk : d.digits.length ≤ e + 1 := List.drop_eq_nil_iff.mp hnil
    have hs := Literal.spells_of_point negative hw hv hl (isDigits_zeros 1) (List.cons_ne_nil _ _)
    have hplace : (e : ℤ) + 1 - d.digits.length = (e + 1 - d.digits.length : ℕ) := by omega
    have hvalue : (Nat.ofDigitChars 10 d.digits 0 : ℚ) * 10 ^ ((e : ℤ) + 1 - d.digits.length) =
        Nat.ofDigitChars 10 (d.digits.take (e + 1) ++ List.replicate
          (e + 1 - (d.digits.take (e + 1)).length) '0' ++ ['0']) 0 * 10 ^ (-1 : ℤ) := by
      rw [List.take_of_length_le hk, Nat.ofDigitChars_append, Nat.ofDigitChars_append,
        Nat.ofDigitChars_replicate_zero, hplace, zpow_natCast]
      simp [Nat.ofDigitChars_cons]
      ring
    rw [hnil, hvalue]
    exact hs
  · have hk : e + 1 < d.digits.length := by rwa [List.drop_eq_nil_iff, not_le] at hnil
    have hs := Literal.spells_of_point negative hw hv hl hdrop hnil
    have hplace : -((d.digits.drop (e + 1)).length : ℤ) = e + 1 - d.digits.length := by
      rw [List.length_drop]
      omega
    have hfull : e + 1 - (d.digits.take (e + 1)).length = 0 := by
      rw [List.length_take]
      omega
    rw [if_neg (by simpa using hk)]
    rw [hplace] at hs
    simp only [hfull, List.replicate_zero, List.append_nil, List.take_append_drop] at hs ⊢
    exact hs

/-- The text of a decimal is a literal that denotes it. -/
theorem Proper.exists_spells (h : d.Proper) (negative : Bool) :
    ∃ shift ≤ max 0 d.exponent, Literal.Spells negative d.text shift d.magnitude := by
  by_cases he : d.exponent < -5 ∨ 15 < d.exponent
  · exact ⟨_, le_max_right _ _, h.spells_scientific he negative⟩
  · push Not at he
    refine ⟨0, le_max_left _ _, ?_⟩
    rcases lt_or_ge d.exponent 0 with hn | hp
    · exact h.spells_lt_one he.1 hn negative
    · exact h.spells_whole hp he.2 negative

theorem Proper.pow_exponent_le (h : d.Proper) : (10 : ℚ) ^ d.exponent ≤ d.magnitude := by
  obtain ⟨hd, c, cs, hc, hz⟩ := h
  have hone : 1 ≤ c.toNat - '0'.toNat := one_le_of_isDigit (hd c (hc ▸ .head _)) hz
  have hdigits : 10 ^ cs.length ≤ Nat.ofDigitChars 10 d.digits 0 := by
    rw [hc, Nat.ofDigitChars_cons, Nat.ofDigitChars_eq_ofDigitChars_zero]
    nlinarith [Nat.pow_pos (n := cs.length) (by decide : 0 < 10)]
  have he : d.exponent = cs.length + (d.exponent + 1 - d.digits.length) := by
    rw [hc, List.length_cons]
    push_cast
    ring
  rw [he, zpow_add₀ (by norm_num), zpow_natCast, magnitude]
  gcongr
  exact_mod_cast hdigits

theorem Proper.exponent_lt (h : d.Proper) (hm : d.magnitude ≤ ample) :
    d.exponent < exponentLimit := by
  by_contra hge
  obtain ⟨e, he⟩ := Int.eq_ofNat_of_zero_le (le_trans (Int.natCast_nonneg _) (not_lt.mp hge))
  have hlarge : 308 < e := by
    rw [he, not_lt, exponentLimit] at hge
    exact lt_of_lt_of_le (by decide) (Int.ofNat_le.mp hge)
  have hle := h.pow_exponent_le.trans hm
  rw [he, zpow_natCast] at hle
  have hle' : 10 ^ e ≤ ample := by exact_mod_cast hle
  exact absurd hle' (not_le.mpr (ample_lt_pow hlarge))

end Decimal

namespace Number

theorem Literal.ofChars?_signed {negative : Bool} {l : Literal} {cs : List Char}
    (h : Literal.unsigned? negative cs = some l) :
    Literal.ofChars? (if negative then '-' :: cs else cs) = some l := by
  cases negative with
  | true => exact h
  | false =>
    cases cs with
    | nil => cases h
    | cons c cs =>
      have hc : c ≠ '-' := by
        rintro rfl
        cases h
      unfold Literal.ofChars?
      split
      · next he => exact absurd (List.cons.inj he).1 hc
      · exact h

theorem exists_cons_toDigits {n : ℕ} (hn : 0 < n) :
    ∃ c cs, Nat.toDigits 10 n = c :: cs ∧ c ≠ '0' := by
  induction n using Nat.strong_induction_on with
  | _ n ih =>
    rcases lt_or_ge n 10 with hlt | hge
    · have hz : ∀ m < 10, 0 < m → Nat.digitChar m ≠ '0' := by decide
      exact ⟨_, [], Nat.toDigits_of_lt_base hlt, hz n hlt hn⟩
    · obtain ⟨c, cs, hc, hz⟩ := ih (n / 10) (by omega) (by omega)
      rw [Nat.toDigits_of_base_le (by decide) hge, hc]
      exact ⟨c, _, List.cons_append, hz⟩

theorem ofChars?_int {i : ℤ} (h : (int i).WellFormed) : ofChars? (int i).text = some (int i) := by
  obtain ⟨hlow, hhigh⟩ := h
  have hv : Literal.validWhole (digitValues (Nat.toDigits 10 i.natAbs)) = true := by
    rcases Nat.eq_zero_or_pos i.natAbs with hz | hpos
    · rw [hz]
      rfl
    · obtain ⟨c, cs, hc, hz⟩ := exists_cons_toDigits hpos
      have hd := isDigits_toDigits i.natAbs
      rw [hc] at hd ⊢
      exact validWhole_cons (hd c (.head _)) hz cs
  have hu := Literal.unsigned?_of_whole (decide (i < 0)) (isDigits_toDigits i.natAbs)
    hv endsDigits_nil nofun rfl
  rw [List.append_nil] at hu
  have hfits : append 0 (digitValues (Nat.toDigits 10 i.natAbs)) = i.natAbs :=
    (ofDigits_digitValues _).trans Nat.ofDigitChars_ten_toDigits
  simp only [Nat.pow_eq] at hlow hhigh
  have habsorb : absorb 0 (digitValues (Nat.toDigits 10 i.natAbs)) = (i.natAbs, []) := by
    rw [absorb_of_lt, hfits]
    rw [hfits, significandLimit, Nat.pow_eq]
    omega
  have ht : (int i).text = if decide (i < 0) then '-' :: Nat.toDigits 10 i.natAbs
      else Nat.toDigits 10 i.natAbs := by simp [text]
  rw [ht, ofChars?, Literal.ofChars?_signed hu, Option.bind_some, Literal.number?]
  simp only [habsorb, Literal.isInteger]
  rcases lt_or_ge i 0 with hneg | hpos
  · have hexact : (decide (0 < i.natAbs) && decide (i.natAbs ≤ Nat.pow 2 63)) = true := by
      simp only [Nat.pow_eq, Bool.and_eq_true, decide_eq_true_eq]
      omega
    have hi : -(i.natAbs : ℤ) = i := by omega
    simp only [hneg, hexact, hi]
    rfl
  · have hi : (i.natAbs : ℤ) = i := by omega
    simp only [not_lt.mpr hpos, hi]
    rfl

end Number

namespace Double

open Number

variable {d : Double} {grid : ℤ} {n : ℕ}

theorem exists_eq_append_zeros (cs : List Char) :
    ∃ k, cs = dropTrailingZeros cs ++ List.replicate k '0' := by
  refine ⟨(cs.reverse.takeWhile (· == '0')).length, ?_⟩
  have hz : cs.reverse.takeWhile (· == '0') =
      List.replicate (cs.reverse.takeWhile (· == '0')).length '0' :=
    List.eq_replicate_of_mem fun c hc => by simpa using List.mem_takeWhile_imp hc
  have h := congrArg List.reverse
    (List.takeWhile_append_dropWhile (p := (· == '0')) (l := cs.reverse))
  rw [List.reverse_append, List.reverse_reverse, hz, List.reverse_replicate] at h
  exact h.symm

def decimalOf (n : ℕ) (grid : ℤ) : Decimal :=
  ⟨dropTrailingZeros (Nat.toDigits 10 n), grid + (Nat.toDigits 10 n).length - 1⟩

theorem decimalOf_spec (hn : 0 < n) (grid : ℤ) :
    (decimalOf n grid).Proper ∧ (decimalOf n grid).magnitude = n * 10 ^ grid := by
  obtain ⟨k, hk⟩ := exists_eq_append_zeros (Nat.toDigits 10 n)
  obtain ⟨c, cs, hc, hz⟩ := exists_cons_toDigits hn
  have hd := isDigits_toDigits n
  have hvalue := Nat.ofDigitChars_ten_toDigits (n := n)
  have hlen := congrArg List.length hk
  rw [hk, Nat.ofDigitChars_append, Nat.ofDigitChars_replicate_zero] at hvalue
  rw [List.length_append, List.length_replicate] at hlen
  constructor
  · refine ⟨fun c hc => hd c (hk ▸ List.mem_append_left _ hc), ?_⟩
    cases hz' : dropTrailingZeros (Nat.toDigits 10 n) with
    | nil =>
      rw [hz', Nat.ofDigitChars_nil, Nat.mul_zero] at hvalue
      exact absurd hvalue hn.ne
    | cons c' cs' =>
      rw [hz', hc] at hk
      cases hk
      exact ⟨c, cs', hz', hz⟩
  · have he : grid + (Nat.toDigits 10 n).length - 1 + 1 -
        (dropTrailingZeros (Nat.toDigits 10 n)).length = k + grid := by omega
    simp only [Decimal.magnitude, decimalOf, he]
    generalize dropTrailingZeros (Nat.toDigits 10 n) = digits at hvalue
    rw [zpow_add₀ (by norm_num), zpow_natCast, ← hvalue]
    push_cast
    ring

theorem quarterOver_spec (d : Double) (grid : ℤ) :
    0 < (d.quarterOver grid).1 ∧ 0 < (d.quarterOver grid).2 ∧
      ((d.quarterOver grid).1 : ℚ) / (d.quarterOver grid).2 = 2 ^ (d.exponent - 2) / 10 ^ grid := by
  have hpos : ∀ b k, 0 < b → 0 < Nat.pow b k := fun _ _ hb => Nat.pow_pos hb
  refine ⟨Nat.mul_pos (hpos 2 _ two_pos) (hpos 10 _ (by decide)),
    Nat.mul_pos (hpos 2 _ two_pos) (hpos 10 _ (by decide)), ?_⟩
  have htwo := pow_toNat_div (two_ne_zero (α := ℚ)) (d.exponent - 2)
  have hten := pow_toNat_div (by norm_num : (10 : ℚ) ≠ 0) grid
  rw [neg_sub] at htwo
  rw [← htwo, ← hten, quarterOver]
  simp only [Nat.pow_eq, Nat.cast_mul, Nat.cast_pow, Nat.cast_ofNat]
  field_simp

theorem holds_of_onGrid? (h : d.onGrid? grid = some n) :
    d.roundingRange.holds (n * (d.quarterOver grid).2) (d.quarterOver grid).1 = true := by
  unfold onGrid? at h
  dsimp only at h
  split at h
  · next hb =>
    obtain ⟨hb, ha⟩ := Bool.and_eq_true_iff.mp hb
    split at h
    · cases h
      exact hb
    · split at h
      · cases h
        exact ha
      · cases h
        rcases Nat.mod_two_eq_zero_or_one
          (d.roundingRange.centre * (d.quarterOver grid).1 / (d.quarterOver grid).2) with hm | hm
        · rw [hm]
          exact hb
        · rw [hm]
          exact ha
  · split at h
    · next hb =>
      cases h
      exact hb
    · split at h
      · next ha =>
        cases h
        exact ha
      · cases h

theorem RoundingRange.le_of_holds {r : RoundingRange} {num den : ℕ} (h : r.holds num den = true) :
    r.low * den ≤ num ∧ num ≤ r.high * den := by
  unfold holds at h
  split at h
  · simpa using h
  · simp only [Bool.and_eq_true, decide_eq_true_eq] at h
    exact ⟨h.1.le, h.2.le⟩

theorem onGrid?_spec (hs : 0 < d.significand) (h : d.onGrid? grid = some n) :
    0 < n ∧ (n : ℚ) * 10 ^ grid ≤ (4 * d.significand + 2) * 2 ^ (d.exponent - 2) := by
  obtain ⟨hnum, hden, hquot⟩ := quarterOver_spec d grid
  obtain ⟨hlow, hhigh⟩ := RoundingRange.le_of_holds (holds_of_onGrid? h)
  generalize (d.quarterOver grid).1 = num at *
  generalize (d.quarterOver grid).2 = den at *
  have hpos : 0 < d.roundingRange.low := by
    simp only [roundingRange]
    split <;> omega
  constructor
  · have := (Nat.mul_pos hpos hnum).trans_le hlow
    exact Nat.pos_of_mul_pos_right this
  · have hq : (0 : ℚ) < den := by exact_mod_cast hden
    have hp : (0 : ℚ) < 10 ^ grid := by positivity
    have hc : (n : ℚ) * den ≤ (4 * d.significand + 2) * num := by exact_mod_cast hhigh
    rw [← le_div_iff₀ hp, mul_div_assoc, ← hquot, ← mul_div_assoc, le_div_iff₀ hq]
    exact hc

/-- The digits that are found make up a number that rounds to the double, or its significand. -/
theorem searchDigits_spec (hs : 0 < d.significand) (place : ℤ) (count fuel : ℕ) :
    ∃ n grid, d.searchDigits place count fuel = (n, grid) ∧ 0 < n ∧
      ((n : ℚ) * 10 ^ grid ≤ (4 * d.significand + 2) * 2 ^ (d.exponent - 2) ∨
        (n : ℚ) * 10 ^ grid = d.significand) := by
  induction fuel generalizing count with
  | zero => exact ⟨d.significand, 0, rfl, hs, .inr (by simp)⟩
  | succ fuel ih =>
    unfold searchDigits
    dsimp only
    split
    · next n hn =>
      obtain ⟨hpos, hle⟩ := onGrid?_spec hs hn
      exact ⟨n, _, rfl, hpos, .inl hle⟩
    · exact ih _

theorem shortest_spec (hs : 0 < d.significand) : d.shortest.Proper ∧
    (d.shortest.magnitude ≤ (4 * d.significand + 2) * 2 ^ (d.exponent - 2) ∨
      d.shortest.magnitude = d.significand) := by
  obtain ⟨n, grid, he, hn, hm⟩ := d.searchDigits_spec hs d.leadingPlace 1 17
  have hd : d.shortest = decimalOf n grid := by simp only [shortest, he, decimalOf]
  obtain ⟨hp, hv⟩ := decimalOf_spec hn grid
  rw [hd, hv]
  exact ⟨hp, hm⟩

/-- All but the two greatest doubles have a text well within the range. -/
theorem magnitude_shortest_le (hd : d.Canonical) (hs : 0 < d.significand)
    (hb : d.exponent < greatestExponent ∨ d.significand + 3 ≤ 2 ^ 53) :
    d.shortest.magnitude ≤ ample := by
  obtain ⟨hs53, -, hge, -⟩ := hd
  simp only [Nat.pow_eq] at hs53
  rcases (shortest_spec hs).2 with h | h
  · refine h.trans ?_
    have hp : (0 : ℚ) < 2 ^ greatestExponent := zpow_pos two_pos _
    have he : (2 : ℚ) ^ (d.exponent - 2) = 2 ^ d.exponent / 4 := by
      rw [zpow_sub₀ two_ne_zero]
      norm_num
    rw [cast_ample, he]
    rcases hb with hlt | hfar
    · have hq : (d.significand : ℚ) + 1 ≤ 2 ^ 53 := by exact_mod_cast hs53
      have hpow : (2 : ℚ) ^ (d.exponent + 1) ≤ 2 ^ greatestExponent :=
        zpow_le_zpow_right₀ one_le_two hlt
      rw [zpow_add_one₀ two_ne_zero] at hpow
      generalize (2 : ℚ) ^ greatestExponent = unit at *
      calc (4 * (d.significand : ℚ) + 2) * (2 ^ d.exponent / 4)
          ≤ (4 * (2 ^ 53 - 1) + 2) * (unit / 2 / 4) := by gcongr <;> linarith
        _ ≤ (2 ^ 53 - 5 / 2) * unit := by linarith
    · have hq : (d.significand : ℚ) + 3 ≤ 2 ^ 53 := by exact_mod_cast hfar
      have hpow : (2 : ℚ) ^ d.exponent ≤ 2 ^ greatestExponent :=
        zpow_le_zpow_right₀ one_le_two hge
      generalize (2 : ℚ) ^ greatestExponent = unit at *
      calc (4 * (d.significand : ℚ) + 2) * (2 ^ d.exponent / 4)
          ≤ (4 * (2 ^ 53 - 3) + 2) * (unit / 4) := by gcongr; linarith
        _ = (2 ^ 53 - 5 / 2) * unit := by ring
  · rw [h]
    exact_mod_cast hs53.le.trans (by decide +kernel)

theorem isSome_ofChars?_greatest : ∀ negative, ∀ significand ∈ [2 ^ 53 - 1, 2 ^ 53 - 2],
    (ofChars? (text ⟨negative, significand, greatestExponent⟩)).isSome = true := by
  decide +kernel

theorem isSome_ofChars?_text (hd : d.Canonical) : (ofChars? d.text).isSome = true := by
  obtain ⟨negative, significand, exponent⟩ := d
  rcases Nat.eq_zero_or_pos significand with rfl | hs
  · have ht : text ⟨negative, 0, exponent⟩ =
        if negative then ['-', '0', '.', '0'] else ['0', '.', '0'] := by simp [text, isZero]
    rw [ht]
    cases negative <;> decide
  by_cases hb : exponent < greatestExponent ∨ significand + 3 ≤ 2 ^ 53
  · have hm := magnitude_shortest_le hd hs hb
    have hp := (shortest_spec (d := ⟨negative, significand, exponent⟩) hs).1
    obtain ⟨shift, hshift, l, hl, hi, hw, rfl, hv⟩ := hp.exists_spells negative
    have he : Literal.power l.exponent < exponentLimit :=
      hshift.trans_lt (max_lt (by decide) (hp.exponent_lt hm))
    have ht : text ⟨negative, significand, exponent⟩ = if negative then
        '-' :: (shortest ⟨negative, significand, exponent⟩).text
        else (shortest ⟨negative, significand, exponent⟩).text := by
      simp [text, isZero, hs.ne']
    rw [ht, ofChars?, Literal.ofChars?_signed hl, Option.bind_some, Literal.number?, hi]
    simpa using Literal.isSome_double? hw he (hv ▸ hm)
  · obtain ⟨hlt, -, hle, -⟩ := hd
    simp only [Nat.pow_eq, not_or, not_lt, not_le] at hlt hle hb
    obtain rfl : exponent = greatestExponent := le_antisymm hle hb.1
    exact isSome_ofChars?_greatest negative significand (by simp; omega)

end Double

/-- The text of every number is read. -/
theorem Number.isSome_ofChars?_text {n : Number} (h : n.WellFormed) :
    (ofChars? n.text).isSome = true := by
  cases n with
  | int i => rw [ofChars?_int h, Option.isSome_some]
  | double d => exact Double.isSome_ofChars?_text h

end SchemaRoutes
