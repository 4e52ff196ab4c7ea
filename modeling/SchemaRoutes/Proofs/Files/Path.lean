import Mathlib.Data.List.TakeWhile
import SchemaRoutes.Files.Path
import SchemaRoutes.Proofs.Text.Split

/-! # Parts of paths

The parts of a joined path are those of the base followed by those of what is joined to it. The
parent of a path has the same parts but for the last step and what is idle in front of it.
-/

namespace SchemaRoutes.Path

variable {part path base : String} {parts' : List String}

theorem slash_not_mem_of_mem_parts (h : part ∈ parts path) : '/' ∉ part.toList := by
  obtain ⟨cs, hm, rfl⟩ := List.mem_map.mp h
  rw [String.toList_ofList]
  exact Text.not_mem_of_mem_splitChars hm

theorem parts_of_not_mem (h : '/' ∉ path.toList) : parts path = [path] := by
  rw [parts, Text.split, Text.splitChars_of_not_mem h, List.map_singleton, String.ofList_toList]

theorem parts_append_slash (base path : String) :
    parts (base ++ "/" ++ path) = parts base ++ parts path := by
  have hl : (base ++ "/" ++ path).toList = base.toList ++ '/' :: path.toList := by simp
  rw [parts, Text.split, hl, Text.splitChars_append, List.map_append]
  rfl

theorem exists_parts_eq_concat (path : String) : ∃ init last, parts path = init ++ [last] := by
  have hne : parts path ≠ [] := by simp [parts, Text.split, Text.splitChars_ne_nil]
  exact ⟨_, _, (List.dropLast_append_getLast hne).symm⟩

theorem parts_joinParts (hne : parts' ≠ []) (hs : ∀ p ∈ parts', '/' ∉ p.toList) :
    parts (joinParts parts') = parts' := by
  induction parts' with
  | nil => exact absurd rfl hne
  | cons p ps ih =>
    obtain ⟨hp, hs⟩ := List.forall_mem_cons.mp hs
    cases ps with
    | nil => exact parts_of_not_mem hp
    | cons q qs =>
      rw [joinParts, String.intercalate_cons_cons, parts_append_slash, parts_of_not_mem hp]
      exact congrArg _ (ih (List.cons_ne_nil _ _) hs)

theorem joinParts_parts (path : String) : joinParts (parts path) = path := by
  refine String.ext ?_
  have hl : (parts path).map String.toList = Text.splitChars '/' path.toList := by
    simp [parts, Text.split, Function.comp_def]
  rw [joinParts, String.toList_intercalate, hl]
  exact Text.intercalate_splitChars '/' path.toList

theorem join_empty (path : String) : join "" path = path :=
  if_pos (Bool.or_true _)

theorem join_ne_empty (base : String) (h : path ≠ "") : join base path ≠ "" := by
  unfold join
  split
  · exact h
  · split <;> simp [h]

theorem le_utf8ByteSize (h : path ≠ "") (hu : isUsable path = false) :
    4096 ≤ path.utf8ByteSize := by
  simpa [isUsable, h] using hu

theorem exists_of_endsWithSlash (h : endsWithSlash path = true) : ∃ init, path = init ++ "/" := by
  obtain ⟨init, hi⟩ := List.getLast?_eq_some_iff.mp (beq_iff_eq.mp h)
  exact ⟨String.ofList init, String.ext (by simp [hi])⟩

theorem isAbsolute_append (h : base ≠ "") (path : String) :
    isAbsolute (base ++ path) = isAbsolute base := by
  have hne : base.toList ≠ [] := by simpa using h
  rw [isAbsolute, isAbsolute, String.toList_append, List.head?_append_of_ne_nil _ hne]

theorem endsWithSlash_append (base : String) (h : path ≠ "") :
    endsWithSlash (base ++ path) = endsWithSlash path := by
  have hne : path.toList ≠ [] := by simpa using h
  rw [endsWithSlash, endsWithSlash, String.toList_append, List.getLast?_append_of_ne_nil _ hne]

theorem parts_cases (path : String) :
    path = "" ∧ parts path = [""] ∨
      isAbsolute path = true ∧ (∃ rest, rest ≠ [] ∧ parts path = "" :: rest) ∨
      isAbsolute path = false ∧ ∃ first rest, first ≠ "" ∧ parts path = first :: rest := by
  cases h : path.toList with
  | nil =>
    left
    obtain rfl : path = "" := by simpa using h
    exact ⟨rfl, rfl⟩
  | cons c cs =>
    right
    by_cases hc : c = '/'
    · left
      subst hc
      refine ⟨by rw [isAbsolute, h]; rfl, (Text.splitChars '/' cs).map String.ofList, ?_, ?_⟩
      · simpa using Text.splitChars_ne_nil '/' cs
      · rw [parts, Text.split, h, Text.splitChars, if_pos rfl]
        rfl
    · right
      refine ⟨by simp [isAbsolute, h, hc], ?_⟩
      rw [parts, Text.split, h, Text.splitChars, if_neg hc]
      cases hs : Text.splitChars '/' cs with
      | nil => exact absurd hs (Text.splitChars_ne_nil '/' cs)
      | cons part parts => exact ⟨_, _, by simp, rfl⟩

theorem isAbsolute_of_parts {rest : List String} (h : parts path = "" :: rest) (hne : rest ≠ []) :
    isAbsolute path = true := by
  rcases parts_cases path with ⟨-, hp⟩ | ⟨ha, -⟩ | ⟨-, first, rest', hfirst, hp⟩
  · cases h.symm.trans hp
    exact absurd rfl hne
  · exact ha
  · cases h.symm.trans hp
    exact absurd rfl hfirst

theorem isAbsolute_eq_false {first : String} {rest : List String} (h : parts path = first :: rest)
    (hne : first ≠ "") : isAbsolute path = false := by
  rcases parts_cases path with ⟨-, hp⟩ | ⟨-, rest', -, hp⟩ | ⟨ha, -⟩
  · cases h.symm.trans hp
    exact absurd rfl hne
  · cases h.symm.trans hp
    exact absurd rfl hne
  · exact ha

theorem ne_empty_of_isStep (h : isStep part = true) : part ≠ "" := by
  rintro rfl
  cases h

/-- What is left out at the end is idle, and what is kept ends in a step. -/
theorem exists_dropIdle (ps : List String) :
    ∃ idle, ps = dropIdle ps ++ idle ∧ ∀ p ∈ idle, isStep p = false := by
  refine ⟨(ps.reverse.takeWhile fun part => !isStep part).reverse, ?_, ?_⟩
  · rw [dropIdle, ← List.reverse_append, List.takeWhile_append_dropWhile, List.reverse_reverse]
  · intro p hp
    have h := List.mem_takeWhile_imp (List.mem_reverse.mp hp)
    simpa using h

theorem dropIdle_concat (ps : List String) (h : isStep part = true) :
    dropIdle (ps ++ [part]) = ps ++ [part] := by
  simp [dropIdle, h]

theorem dropIdle_cons (ps : List String) (h : isStep part = true) :
    dropIdle (part :: ps) = part :: dropIdle ps := by
  rw [dropIdle, List.reverse_cons, List.dropWhile_append, dropIdle]
  split
  · next he => simp [List.isEmpty_iff.mp he, h]
  · rw [List.reverse_append, List.reverse_singleton, List.singleton_append]

theorem mem_of_mem_dropIdle {ps : List String} (h : part ∈ dropIdle ps) : part ∈ ps := by
  obtain ⟨idle, hp, -⟩ := exists_dropIdle ps
  rw [hp]
  exact List.mem_append_left idle h

theorem parts_slash_append (path : String) : parts ("/" ++ path) = "" :: parts path := by
  rw [← String.empty_append (s := "/"), parts_append_slash]
  rfl

variable {init rest : List String}

theorem parent?_of_absolute (h : parts path = "" :: (rest ++ [part])) (hs : isStep part = true) :
    parent? path = some ("/" ++ joinParts (dropIdle rest)) := by
  have hne : rest ++ [part] ≠ [] := by simp
  rw [parent?, h]
  simp only [dropIdle_concat rest hs]
  rw [List.dropLast_concat]

theorem parent?_of_dot (h : parts path = "." :: (rest ++ [part])) (hs : isStep part = true) :
    parent? path = some (joinParts ("." :: dropIdle rest)) := by
  have hne : rest ++ [part] ≠ [] := by simp
  rw [parent?, h]
  simp only [dropIdle_concat rest hs]
  rw [List.dropLast_concat]

theorem parent?_of_step (h : parts path = init ++ [part]) (hs : isStep part = true)
    (hi : ∀ first ∈ init.head?, isStep first = true) :
    parent? path = some (joinParts (dropIdle init)) := by
  have hne : init ++ [part] ≠ [] := by simp
  have hfirst : ∀ first rest, init ++ [part] = first :: rest → isStep first = true := by
    intro first rest he
    cases init with
    | nil =>
      cases he
      exact hs
    | cons p ps =>
      cases he
      exact hi _ rfl
  rw [parent?, h]
  split
  · next rest he => cases hfirst _ _ he
  · next rest he => cases hfirst _ _ he
  · rw [dropIdle_concat init hs]
    split
    · contradiction
    · rw [List.dropLast_concat]

theorem directory_of_not_mem (hne : path ≠ "") (h : '/' ∉ path.toList) :
    directory path = "" := by
  by_cases hdot : path = "."
  · subst hdot
    rfl
  · have hparts : parts path = [] ++ [path] := parts_of_not_mem h
    have hstep : isStep path = true := by simp [isStep, hne, hdot]
    rw [directory, parent?_of_step hparts hstep nofun]
    rfl

theorem parent?_append_slash {dir first last : String} (hp : '/' ∉ part.toList)
    (hs : isStep part = true) (hd : parts dir = init ++ [last]) (hl : isStep last = true)
    (hf : (parts dir).head? = some first) (hfs : isStep first = true) :
    parent? (dir ++ "/" ++ part) = some dir := by
  have hparts : parts (dir ++ "/" ++ part) = parts dir ++ [part] := by
    rw [parts_append_slash, parts_of_not_mem hp]
  have hfirst : ∀ p ∈ (parts dir).head?, isStep p = true := fun p h => by
    cases hf.symm.trans h
    exact hfs
  rw [parent?_of_step hparts hs hfirst, hd, dropIdle_concat init hl, ← hd, joinParts_parts]

end SchemaRoutes.Path
