import Mathlib.Data.Int.Notation
import Mathlib.Data.List.Induction
import SchemaRoutes.Text.Numeral

/-! # Numerals are read back

The digits of a number are read as that number, and a minus sign in front of them turns it round.
Zeros and a plus sign in front make no difference.
-/

namespace SchemaRoutes.Text

variable {n : Nat} {i : Int}

theorem digitsValue?_toDigits (n : Nat) : digitsValue? (Nat.toDigits 10 n) = some n := by
  have hd : (Nat.toDigits 10 n).all Char.isDigit = true :=
    List.all_eq_true.mpr fun c => Nat.isDigit_of_mem_toDigits (by decide) (by decide)
  have hv : Nat.ofDigitChars 10 (Nat.toDigits 10 n) 0 = n := Nat.ofDigitChars_ten_toDigits
  simp only [Nat.ofDigitChars, Nat.mul_comm 10] at hv
  simpa [digitsValue?, hd, Nat.toDigits_ne_nil] using hv

theorem not_mem_toDigits {c : Char} (hc : c.isDigit = false) : c ∉ Nat.toDigits 10 n := by
  intro h
  rw [Nat.isDigit_of_mem_toDigits (by decide) (by decide) h] at hc
  cases hc

theorem digitsValue?_eq_some_iff {cs : List Char} : digitsValue? cs = some n ↔
    cs ≠ [] ∧ (∀ c ∈ cs, c.isDigit = true) ∧ Nat.ofDigitChars 10 cs 0 = n := by
  have hv : cs.foldl (fun n c => n * 10 + (c.toNat - '0'.toNat)) 0 = Nat.ofDigitChars 10 cs 0 := by
    simp only [Nat.ofDigitChars, Nat.mul_comm 10]
  unfold digitsValue?
  rw [hv]
  constructor
  · intro h
    split at h
    · cases h
    · next hd =>
      simp only [Bool.or_eq_true, not_or, List.isEmpty_iff, Bool.not_eq_true', Bool.not_eq_false,
        List.all_eq_true] at hd
      exact ⟨hd.1, hd.2, Option.some.inj h⟩
  · rintro ⟨hne, hd, rfl⟩
    simp [hne, List.all_eq_true.mpr hd]

theorem exists_eq_digitChar {c : Char} (h : c.isDigit = true) : ∃ d < 10, c = Nat.digitChar d := by
  obtain ⟨hl, hu⟩ := Char.isDigit_iff_toNat.mp h
  have hl : 48 ≤ c.toNat := hl
  have hu : c.toNat ≤ 57 := hu
  refine ⟨c.toNat - 48, by omega, Char.toNat_inj.mp ?_⟩
  rw [Nat.toNat_digitChar_of_lt_ten (by omega)]
  omega

theorem exists_eq_zeros_append {cs : List Char} (hne : cs ≠ [])
    (hd : ∀ c ∈ cs, c.isDigit = true) :
    ∃ k, cs = List.replicate k '0' ++ Nat.toDigits 10 (Nat.ofDigitChars 10 cs 0) := by
  induction cs using List.reverseRecOn with
  | nil => exact absurd rfl hne
  | append_singleton cs c ih =>
    obtain ⟨d, hlt, rfl⟩ := exists_eq_digitChar (hd c (by simp))
    have hlast : Nat.toDigits 10 d = [d.digitChar] := Nat.toDigits_of_lt_base hlt
    have hvalue : ∀ m, Nat.ofDigitChars 10 [d.digitChar] m = 10 * m + d := fun m => by
      rw [Nat.ofDigitChars_cons_digitChar_of_lt_ten hlt, Nat.ofDigitChars_nil]
    rw [Nat.ofDigitChars_append, hvalue]
    rcases eq_or_ne cs [] with rfl | hcs
    · refine ⟨0, ?_⟩
      rw [Nat.ofDigitChars_nil, Nat.mul_zero, Nat.zero_add, hlast]
      rfl
    · obtain ⟨k, hk⟩ := ih hcs fun c hc => hd c (List.mem_append_left _ hc)
      generalize Nat.ofDigitChars 10 cs 0 = m at hk
      subst hk
      rcases Nat.eq_zero_or_pos m with rfl | hpos
      · refine ⟨k + 1, ?_⟩
        rw [Nat.mul_zero, Nat.zero_add, hlast, Nat.toDigits_zero, List.replicate_succ']
      · refine ⟨k, ?_⟩
        rw [← Nat.toDigits_append_toDigits (by decide) hpos hlt, hlast, List.append_assoc]

/-- The digits of the number, perhaps with zeros in front, and a plus sign in front of these. -/
def Spells (text : String) (n : ℕ) : Prop :=
  ∃ sign k, (sign = [] ∨ sign = ['+']) ∧
    text.toList = sign ++ (List.replicate k '0' ++ Nat.toDigits 10 n)

theorem digitsValue?_zeros_append (k : ℕ) :
    digitsValue? (List.replicate k '0' ++ Nat.toDigits 10 n) = some n := by
  rw [digitsValue?_eq_some_iff]
  refine ⟨by simp, fun c hc => ?_, ?_⟩
  · rcases List.mem_append.mp hc with hc | hc
    · rw [(List.mem_replicate.mp hc).2]
      rfl
    · exact Nat.isDigit_of_mem_toDigits (by decide) (by decide) hc
  · rw [Nat.ofDigitChars_append, Nat.ofDigitChars_replicate_zero, Nat.mul_zero,
      Nat.ofDigitChars_ten_toDigits]

theorem digitsValue?_eq_some_iff_zeros {cs : List Char} : digitsValue? cs = some n ↔
    ∃ k, cs = List.replicate k '0' ++ Nat.toDigits 10 n := by
  constructor
  · intro h
    obtain ⟨hne, hd, rfl⟩ := digitsValue?_eq_some_iff.mp h
    exact exists_eq_zeros_append hne hd
  · rintro ⟨k, rfl⟩
    exact digitsValue?_zeros_append k

theorem plus_not_mem_zeros_append (k : ℕ) :
    '+' ∉ List.replicate k '0' ++ Nat.toDigits 10 n := by
  rw [List.mem_append, not_or]
  constructor
  · intro h
    cases (List.mem_replicate.mp h).2
  · exact not_mem_toDigits rfl

theorem natural?_eq_some_iff {limit : ℕ} {text : String} :
    natural? limit text = some n ↔ n < limit ∧ Spells text n := by
  have hlimit : ∀ cs : List Char,
      ((digitsValue? cs).bind fun m => if m < limit then some m else none) = some n ↔
        n < limit ∧ ∃ k, cs = List.replicate k '0' ++ Nat.toDigits 10 n := by
    intro cs
    simp only [← digitsValue?_eq_some_iff_zeros, Option.bind_eq_some_iff,
      Option.ite_none_right_eq_some, Option.some.injEq]
    constructor
    · rintro ⟨m, hm, hlt, rfl⟩
      exact ⟨hlt, hm⟩
    · rintro ⟨hlt, hm⟩
      exact ⟨n, hm, hlt, rfl⟩
  unfold natural? Spells
  generalize text.toList = cs
  split
  · next cs =>
    rw [hlimit]
    refine and_congr_right fun _ => ⟨?_, ?_⟩
    · rintro ⟨k, rfl⟩
      exact ⟨['+'], k, .inr rfl, rfl⟩
    · rintro ⟨_, k, rfl | rfl, he⟩
      · exact absurd (he ▸ List.mem_cons_self) (plus_not_mem_zeros_append k)
      · exact ⟨k, (List.cons.inj he).2⟩
  · next hcs =>
    rw [hlimit]
    refine and_congr_right fun _ => ⟨?_, ?_⟩
    · rintro ⟨k, he⟩
      exact ⟨[], k, .inl rfl, he⟩
    · rintro ⟨_, k, rfl | rfl, he⟩
      · exact ⟨k, he⟩
      · exact absurd he (hcs _)

def Denotes (run : List Char) (n : ℕ) : Prop :=
  run ≠ [] ∧ (∀ c ∈ run, c.isDigit = true) ∧ Nat.ofDigitChars 10 run 0 = n

theorem spells_iff_denotes {text : String} : Spells text n ↔
    ∃ sign ∈ [[], ['+']], ∃ run, text.toList = sign ++ run ∧ Denotes run n := by
  have hrun : ∀ run, Denotes run n ↔ ∃ k, run = List.replicate k '0' ++ Nat.toDigits 10 n :=
    fun run => digitsValue?_eq_some_iff.symm.trans digitsValue?_eq_some_iff_zeros
  simp only [Spells, hrun, List.mem_cons, List.not_mem_nil, or_false]
  constructor
  · rintro ⟨sign, k, hsign, he⟩
    exact ⟨sign, hsign, _, he, k, rfl⟩
  · rintro ⟨sign, hsign, _, he, k, rfl⟩
    exact ⟨sign, k, hsign, he⟩

theorem Denotes.not_mem {run : List Char} (h : Denotes run n) {c : Char} (hc : c.isDigit = false) :
    c ∉ run := by
  intro hm
  rw [h.2.1 c hm] at hc
  cases hc

/-- A run of digits for an integer of 64 bits, which may have a sign in front. -/
def SpellsInteger (text : String) (i : ℤ) : Prop :=
  (-9223372036854775808 ≤ i ∧ i < 9223372036854775808) ∧ ∃ run n, Denotes run n ∧
    (text.toList = '-' :: run ∧ i = -n ∨ (text.toList = run ∨ text.toList = '+' :: run) ∧ i = n)

theorem integer?_eq_some_iff {text : String} : integer? text = some i ↔ SpellsInteger text i := by
  have hbounded {p : ℕ → Prop} [DecidablePred p] {f : ℕ → ℤ} (cs : List Char)
      (hp : ∀ n, p n ↔ -9223372036854775808 ≤ f n ∧ f n < 9223372036854775808) :
      ((digitsValue? cs).bind fun n => if p n then some (f n) else none) = some i ↔
        (-9223372036854775808 ≤ i ∧ i < 9223372036854775808) ∧ ∃ n, Denotes cs n ∧ i = f n := by
    simp only [Option.bind_eq_some_iff, digitsValue?_eq_some_iff, Option.ite_none_right_eq_some,
      Option.some.injEq, hp]
    constructor
    · rintro ⟨n, hn, hrange, rfl⟩
      exact ⟨hrange, n, hn, rfl⟩
    · rintro ⟨hrange, n, hn, rfl⟩
      exact ⟨n, hn, hrange, rfl⟩
  have hmagnitude : integerMagnitude = 9223372036854775808 := rfl
  unfold integer? SpellsInteger
  generalize text.toList = cs
  -- No digit is a sign, so each way of writing an integer is found in one branch only.
  split
  · next cs =>
    rw [hbounded (f := fun n => -n) cs fun n => by omega]
    refine and_congr_right fun _ => ⟨?_, ?_⟩
    · rintro ⟨n, hn, rfl⟩
      exact ⟨cs, n, hn, .inl ⟨rfl, rfl⟩⟩
    · rintro ⟨run, n, hn, ⟨he, rfl⟩ | ⟨rfl | he, rfl⟩⟩
      · cases he
        exact ⟨n, hn, rfl⟩
      · exact absurd (.head _) (hn.not_mem (c := '-') rfl)
      · cases he
  · next cs =>
    rw [hbounded (f := fun n => n) cs fun n => by omega]
    refine and_congr_right fun _ => ⟨?_, ?_⟩
    · rintro ⟨n, hn, rfl⟩
      exact ⟨cs, n, hn, .inr ⟨.inr rfl, rfl⟩⟩
    · rintro ⟨run, n, hn, ⟨he, rfl⟩ | ⟨rfl | he, rfl⟩⟩
      · cases he
      · exact absurd (.head _) (hn.not_mem (c := '+') rfl)
      · cases he
        exact ⟨n, hn, rfl⟩
  · next hminus hplus =>
    rw [hbounded (f := fun n => n) cs fun n => by omega]
    refine and_congr_right fun _ => ⟨?_, ?_⟩
    · rintro ⟨n, hn, rfl⟩
      exact ⟨cs, n, hn, .inr ⟨.inl rfl, rfl⟩⟩
    · rintro ⟨run, n, hn, ⟨he, rfl⟩ | ⟨rfl | he, rfl⟩⟩
      · exact absurd he (hminus run)
      · exact ⟨n, hn, rfl⟩
      · exact absurd he (hplus run)

theorem Spells.unique {m : ℕ} {text : String} (h : Spells text n) (h' : Spells text m) : n = m := by
  have hn : natural? (n + m + 1) text = some n := natural?_eq_some_iff.mpr ⟨by omega, h⟩
  have hm : natural? (n + m + 1) text = some m := natural?_eq_some_iff.mpr ⟨by omega, h'⟩
  exact Option.some.inj (hn.symm.trans hm)

theorem spells_decimal (n : ℕ) : Spells (decimal n) n :=
  ⟨[], 0, .inl rfl, by simp [decimal]⟩

def signedDecimal (i : Int) : String := if i < 0 then "-" ++ decimal i.natAbs else decimal i.natAbs

def IsInRange (i : Int) : Prop := -integerMagnitude ≤ i ∧ i < integerMagnitude

instance (i : Int) : Decidable (IsInRange i) := inferInstanceAs (Decidable (_ ∧ _))

theorem integer?_signedDecimal (h : IsInRange i) : integer? (signedDecimal i) = some i := by
  obtain ⟨hl, hu⟩ := h
  unfold signedDecimal
  split
  · next hn =>
    obtain ⟨n, rfl⟩ : ∃ n : Nat, i = -n := ⟨i.natAbs, by omega⟩
    have hm : n ≤ integerMagnitude := by omega
    simp [integer?, decimal, digitsValue?_toDigits, hm]
  · next hn =>
    obtain ⟨n, rfl⟩ : ∃ n : Nat, i = n := ⟨i.natAbs, by omega⟩
    have hm : n < integerMagnitude := by omega
    unfold integer? decimal
    rw [String.toList_ofList]
    -- No digit is a sign.
    split
    · next cs he => exact absurd (he ▸ List.mem_cons_self) (not_mem_toDigits (c := '-') rfl)
    · next cs he => exact absurd (he ▸ List.mem_cons_self) (not_mem_toDigits (c := '+') rfl)
    · simp [digitsValue?_toDigits, hm]

end SchemaRoutes.Text
