import Mathlib.Data.List.Basic
import SchemaRoutes.Text.Split

/-! # Parts of a text

Cutting a text at a separator gives parts without it, and parts without it are found again when
they stand one after another with the separator between them.
-/

namespace SchemaRoutes.Text

variable {sep : Char} {cs rest part : List Char} {parts : List (List Char)}

theorem splitChars_of_not_mem (h : sep ∉ cs) : splitChars sep cs = [cs] := by
  induction cs with
  | nil => rfl
  | cons c cs ih =>
    rw [List.mem_cons, not_or] at h
    rw [splitChars, if_neg (Ne.symm h.1), ih h.2]

theorem splitChars_append_cons (h : sep ∉ cs) :
    splitChars sep (cs ++ sep :: rest) = cs :: splitChars sep rest := by
  induction cs with
  | nil => rw [List.nil_append, splitChars, if_pos rfl]
  | cons c cs ih =>
    rw [List.mem_cons, not_or] at h
    rw [List.cons_append, splitChars, if_neg (Ne.symm h.1), ih h.2]

theorem splitChars_ne_nil (sep : Char) (cs : List Char) : splitChars sep cs ≠ [] := by
  cases cs with
  | nil => exact List.cons_ne_nil _ _
  | cons c cs =>
    rw [splitChars]
    split
    · exact List.cons_ne_nil _ _
    · split <;> exact List.cons_ne_nil _ _

theorem intercalate_splitChars (sep : Char) (cs : List Char) :
    [sep].intercalate (splitChars sep cs) = cs := by
  induction cs with
  | nil => rfl
  | cons c cs ih =>
    rw [splitChars]
    have hne := splitChars_ne_nil sep cs
    split
    · next hc =>
      rw [List.intercalate_cons_of_ne_nil hne, ih, hc]
      rfl
    · cases hs : splitChars sep cs with
      | nil => exact absurd hs hne
      | cons part parts =>
        rw [hs] at ih
        rw [← ih]
        cases parts with
        | nil => simp
        | cons next nexts => simp [List.intercalate_cons_cons]

theorem splitChars_append (sep : Char) (cs rest : List Char) :
    splitChars sep (cs ++ sep :: rest) = splitChars sep cs ++ splitChars sep rest := by
  induction cs with
  | nil => simp [splitChars]
  | cons c cs ih =>
    rw [List.cons_append, splitChars, splitChars, ih]
    split
    · rfl
    · cases h : splitChars sep cs with
      | nil => exact absurd h (splitChars_ne_nil sep cs)
      | cons part parts => rfl

/-- Parts without the separator are found again behind it. -/
theorem splitChars_join (hp : sep ∉ part) (hs : ∀ p ∈ parts, sep ∉ p) :
    splitChars sep (part ++ parts.flatMap (sep :: ·)) = part :: parts := by
  induction parts generalizing part with
  | nil => rw [List.flatMap_nil, List.append_nil, splitChars_of_not_mem hp]
  | cons next parts ih =>
    obtain ⟨hn, hs⟩ := List.forall_mem_cons.mp hs
    rw [List.flatMap_cons, List.cons_append, splitChars_append_cons hp, ih hn hs]

theorem not_mem_of_mem_splitChars (h : part ∈ splitChars sep cs) : sep ∉ part := by
  induction cs generalizing part with
  | nil =>
    rw [List.mem_singleton.mp h]
    exact List.not_mem_nil
  | cons c cs ih =>
    rw [splitChars] at h
    split at h
    · rcases List.mem_cons.mp h with rfl | h
      · exact List.not_mem_nil
      · exact ih h
    · next hc =>
      split at h
      · rw [List.mem_singleton.mp h, List.mem_singleton]
        exact Ne.symm hc
      · next next nexts he =>
        rcases List.mem_cons.mp h with rfl | h
        · rw [List.mem_cons, not_or]
          exact ⟨Ne.symm hc, ih (he ▸ List.mem_cons_self)⟩
        · exact ih (he ▸ List.mem_cons_of_mem _ h)

theorem intercalate_cons (sep : Char) (part : List Char) (parts : List (List Char)) :
    [sep].intercalate (part :: parts) = part ++ parts.flatMap (sep :: ·) := by
  induction parts generalizing part with
  | nil => simp
  | cons next parts ih => simp [List.intercalate_cons_cons, ih]

/-- To cut is to undo the joining of parts that have no separator in them. -/
theorem splitChars_eq_cons_iff : splitChars sep cs = part :: parts ↔
    cs = part ++ parts.flatMap (sep :: ·) ∧ sep ∉ part ∧ ∀ p ∈ parts, sep ∉ p := by
  constructor
  · intro h
    have hs : ∀ p ∈ part :: parts, sep ∉ p := fun p hp => not_mem_of_mem_splitChars (h ▸ hp)
    refine ⟨?_, List.forall_mem_cons.mp hs⟩
    rw [← intercalate_cons, ← h, intercalate_splitChars]
  · rintro ⟨rfl, hp, hs⟩
    exact splitChars_join hp hs

theorem splitChars_intercalate (hne : parts ≠ []) (hs : ∀ p ∈ parts, sep ∉ p) :
    splitChars sep ([sep].intercalate parts) = parts := by
  cases parts with
  | nil => exact absurd rfl hne
  | cons part parts =>
    rw [intercalate_cons]
    exact splitChars_eq_cons_iff.mpr ⟨rfl, List.forall_mem_cons.mp hs⟩

end SchemaRoutes.Text
