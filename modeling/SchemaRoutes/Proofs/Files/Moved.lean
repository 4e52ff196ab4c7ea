import SchemaRoutes.Proofs.Files.Tree
import SchemaRoutes.Proofs.Json.Members

/-! # Trees that have been moved

Everything that lies in the current directory is moved into a new directory there. A relative path
that does not lead out of the current directory leads to the same entry as before if the name of the
new directory is put in front of it. The parents of both paths differ in that name, too, but the
parent of a path can be spelt with a dot in front where that of the longer one is not.
-/

namespace SchemaRoutes

namespace Path

variable {d path path' dir dir' location part first : String} {ps init rest : List String}

/-- Starting so many directories below the top, the parts never lead above it. -/
def staysInside : ℕ → List String → Bool
  | _, [] => true
  | depth, part :: ps =>
    if part = ".." then decide (0 < depth) && staysInside (depth - 1) ps
    else if isStep part then staysInside (depth + 1) ps
    else staysInside depth ps

theorem staysInside_of_not_mem (h : ".." ∉ ps) (depth : ℕ) : staysInside depth ps = true := by
  induction ps generalizing depth with
  | nil => rfl
  | cons part ps ih =>
    rw [List.mem_cons, not_or] at h
    rw [staysInside, if_neg (Ne.symm h.1), ih h.2, ih h.2, ite_self]

structure IsName (d : String) : Prop where
  step : isStep d = true
  up : d ≠ ".."
  slash : '/' ∉ d.toList

instance (d : String) : Decidable (IsName d) :=
  decidable_of_iff (isStep d = true ∧ d ≠ ".." ∧ '/' ∉ d.toList)
    ⟨fun ⟨h, h', h''⟩ => ⟨h, h', h''⟩, fun h => ⟨h.step, h.up, h.slash⟩⟩

/-- The parts of a relative path to a directory, without idle ones at the end. -/
structure AreSteps (ps : List String) : Prop where
  slash : ∀ p ∈ ps, '/' ∉ p.toList
  first : ∀ p ∈ ps.head?, p ≠ ""
  last : ∀ p ∈ ps.getLast?, isStep p = true

/-- The directory is spelt by some steps, perhaps after a dot, and the other one by a name and the
same steps. -/
def SpeltBelow (d dir dir' : String) : Prop :=
  ∃ ps, AreSteps ps ∧ dir' = joinParts (d :: ps) ∧
    (dir = joinParts ps ∨ dir = joinParts ("." :: ps))

theorem areSteps_nil : AreSteps [] := ⟨nofun, nofun, nofun⟩

theorem spelt_empty (d : String) : SpeltBelow d "" d :=
  ⟨[], areSteps_nil, rfl, .inl rfl⟩

theorem joinParts_cons (h : ps ≠ []) : joinParts (part :: ps) = part ++ "/" ++ joinParts ps := by
  obtain ⟨q, qs, rfl⟩ := List.exists_cons_of_ne_nil h
  exact String.intercalate_cons_cons

theorem join_of_last (h : ∀ p ∈ (parts dir).getLast?, p ≠ "") (ha : isAbsolute location = false) :
    join dir location = dir ++ "/" ++ location := by
  have hne : dir ≠ "" := by
    rintro rfl
    exact h "" rfl rfl
  have hslash : endsWithSlash dir = false := by
    by_contra hs
    obtain ⟨init, rfl⟩ := exists_of_endsWithSlash (Bool.not_eq_false _ ▸ hs)
    have hparts : parts (init ++ "/") = parts init ++ [""] := by
      rw [← String.append_empty (s := init ++ "/"), parts_append_slash]
      rfl
    exact h "" (by rw [hparts, List.getLast?_concat]; rfl) rfl
  simp [join, ha, hne, hslash]

theorem parts_join_joinParts (hne : ps ≠ []) (hs : ∀ p ∈ ps, '/' ∉ p.toList)
    (hl : ∀ p ∈ ps.getLast?, p ≠ "") (ha : isAbsolute location = false) :
    parts (join (joinParts ps) location) = ps ++ parts location := by
  have hparts := parts_joinParts hne hs
  rw [join_of_last (by rwa [hparts]) ha, parts_append_slash, hparts]

theorem AreSteps.parts_join_cons (h : AreSteps ps) (hf : first ≠ "") (hs : '/' ∉ first.toList)
    (ha : isAbsolute location = false) :
    parts (join (joinParts (first :: ps)) location) = first :: (ps ++ parts location) := by
  apply parts_join_joinParts (List.cons_ne_nil _ _) (List.forall_mem_cons.mpr ⟨hs, h.slash⟩) ?_ ha
  rw [List.getLast?_cons]
  rintro p hp
  cases hp
  cases hl : ps.getLast? with
  | none => exact hf
  | some last => exact ne_empty_of_isStep (h.last last hl)

theorem SpeltBelow.exists_parts (h : SpeltBelow d dir dir') (hd : IsName d)
    (hl : location ≠ "") (ha : isAbsolute location = false) :
    ∃ ps, (∀ p ∈ ps, '/' ∉ p.toList) ∧ (∀ p ∈ (ps ++ parts location).head?, p ≠ "") ∧
      parts (join dir' location) = d :: (ps ++ parts location) ∧
      (parts (join dir location) = ps ++ parts location ∨
        parts (join dir location) = "." :: (ps ++ parts location)) := by
  obtain ⟨ps, hps, rfl, hdir⟩ := h
  have hhead : ∀ p ∈ (ps ++ parts location).head?, p ≠ "" := by
    cases ps with
    | nil =>
      rcases parts_cases location with ⟨rfl, -⟩ | ⟨ha', -⟩ | ⟨-, first, rest, hfirst, hparts⟩
      · exact absurd rfl hl
      · cases ha.symm.trans ha'
      · rw [List.nil_append, hparts]
        exact fun _ h => Option.some.inj h ▸ hfirst
    | cons first rest => exact hps.first
  refine ⟨ps, hps.slash, hhead, hps.parts_join_cons (ne_empty_of_isStep hd.step) hd.slash ha, ?_⟩
  rcases hdir with rfl | rfl
  · left
    cases ps with
    | nil => rw [List.nil_append, joinParts, String.intercalate_nil, join_empty]
    | cons first rest =>
      apply parts_join_joinParts (List.cons_ne_nil _ _) hps.slash ?_ ha
      exact fun p hp => ne_empty_of_isStep (hps.last p hp)
  · exact .inr (hps.parts_join_cons (by decide) (by decide) ha)

theorem SpeltBelow.utf8ByteSize_le (h : SpeltBelow d dir dir') (hd : IsName d)
    (hl : location ≠ "") (ha : isAbsolute location = false) :
    (join dir location).utf8ByteSize ≤ (join dir' location).utf8ByteSize := by
  obtain ⟨ps, -, -, hparts', hparts⟩ := h.exists_parts hd hl ha
  have hne : ps ++ parts location ≠ [] := by
    obtain ⟨init, last, hlocation⟩ := exists_parts_eq_concat location
    simp [hlocation]
  have hpos : 0 < d.utf8ByteSize := by
    have hd' := ne_empty_of_isStep hd.step
    by_contra h0
    exact hd' (String.utf8ByteSize_eq_zero_iff.mp (by omega))
  have hslash : ("/" : String).utf8ByteSize = 1 := rfl
  have hdot : ("." : String).utf8ByteSize = 1 := rfl
  rw [← joinParts_parts (join dir' location), hparts', joinParts_cons hne,
    String.utf8ByteSize_append, String.utf8ByteSize_append]
  rw [← joinParts_parts (join dir location)]
  rcases hparts with hparts | hparts
  · rw [hparts]
    omega
  · rw [hparts, joinParts_cons hne, String.utf8ByteSize_append, String.utf8ByteSize_append]
    omega

theorem dropIdle_cons_idle (ps : List String) (h : isStep part = false) :
    dropIdle (part :: ps) = [] ∧ dropIdle ps = [] ∨
      dropIdle (part :: ps) = part :: dropIdle ps ∧ dropIdle ps ≠ [] := by
  simp only [dropIdle, List.reverse_cons, List.dropWhile_append, List.reverse_eq_nil_iff]
  split
  · next hn =>
    left
    rw [List.dropWhile_cons_of_pos (by simpa using h)]
    exact ⟨rfl, List.isEmpty_iff.mp hn⟩
  · next hn =>
    right
    rw [List.reverse_append, List.reverse_singleton, List.singleton_append]
    exact ⟨rfl, fun he => hn (List.isEmpty_iff.mpr (List.reverse_eq_nil_iff.mp he))⟩

theorem areSteps_dropIdle (hs : ∀ p ∈ ps, '/' ∉ p.toList) (hf : ∀ p ∈ ps.head?, p ≠ "") :
    AreSteps (dropIdle ps) where
  slash p hp := hs p (mem_of_mem_dropIdle hp)
  first p hp := by
    obtain ⟨idle, hidle, -⟩ := exists_dropIdle ps
    cases hd : dropIdle ps with
    | nil => rw [hd] at hp; cases hp
    | cons q qs =>
      rw [hd] at hp hidle
      rw [hidle] at hf
      exact hf p hp
  last p hp := by
    rw [dropIdle, List.getLast?_reverse] at hp
    have h := List.head?_dropWhile_not (fun part => !isStep part) ps.reverse
    rw [hp] at h
    simpa using h

/-- The parent has the parts that are left, and perhaps a dot in front of them. -/
theorem exists_parent? {front : List String} (h : parts path = front ++ [part])
    (hs : isStep part = true) (hf : ∀ p ∈ front.head?, p ≠ "") :
    ∃ up, parent? path = some up ∧
      (up = joinParts (dropIdle front) ∨ up = joinParts ("." :: dropIdle front)) := by
  cases front with
  | nil => exact ⟨_, parent?_of_step h hs nofun, .inl rfl⟩
  | cons first rest =>
    by_cases hfirst : isStep first = true
    · exact ⟨_, parent?_of_step h hs fun _ h => Option.some.inj h ▸ hfirst, .inl rfl⟩
    · obtain rfl : first = "." := by
        have hne := hf first rfl
        simpa [isStep, hne] using hfirst
      refine ⟨_, parent?_of_dot h hs, ?_⟩
      rcases dropIdle_cons_idle rest (by rfl : isStep "." = false) with ⟨he, hr⟩ | ⟨he, -⟩
      · rw [he, hr]
        exact .inr rfl
      · rw [he]
        exact .inl rfl

theorem SpeltBelow.exists_parents (h : SpeltBelow d dir dir') (hd : IsName d) (hl : location ≠ "")
    (ha : isAbsolute location = false)
    (hlast : ∀ p ∈ (parts location).getLast?, isStep p = true) :
    ∃ up up', parent? (join dir location) = some up ∧ parent? (join dir' location) = some up' ∧
      SpeltBelow d up up' := by
  obtain ⟨ps, hs, hf, hparts', hparts⟩ := h.exists_parts hd hl ha
  obtain ⟨init, last, hps⟩ := exists_parts_eq_concat location
  rw [hps, List.getLast?_concat] at hlast
  have hstep : isStep last = true := hlast last rfl
  have hslash : ∀ p ∈ ps ++ init, '/' ∉ p.toList := by
    rintro p hp
    rcases List.mem_append.mp hp with hp | hp
    · exact hs p hp
    · exact slash_not_mem_of_mem_parts (hps ▸ List.mem_append_left _ hp)
  rw [hps, ← List.append_assoc] at hf hparts hparts'
  generalize ps ++ init = front at hf hparts hparts' hslash
  have hfront : ∀ p ∈ front.head?, p ≠ "" := fun p hp =>
    hf p (List.mem_head?_append_of_mem_head? hp)
  have hsteps : AreSteps (dropIdle front) := areSteps_dropIdle hslash hfront
  have hup' : parent? (join dir' location) = some (joinParts (d :: dropIdle front)) := by
    rw [← dropIdle_cons front hd.step]
    apply parent?_of_step (show _ = (d :: front) ++ [last] from hparts') hstep
    rintro _ ⟨⟩
    exact hd.step
  rcases hparts with hparts | hparts
  · obtain ⟨up, hup, hspelt⟩ := exists_parent? hparts hstep hfront
    exact ⟨up, _, hup, hup', _, hsteps, rfl, hspelt⟩
  · -- The dot in front is kept in the parent of this path, but not in that of the other.
    exact ⟨_, _, parent?_of_dot hparts hstep, hup', _, hsteps, rfl, .inr rfl⟩

end Path

namespace Place

variable {top place rest : Place} {d : String}

/-- The place, with one more directory on the way to it if it lies below the top. -/
def movedInto (top : Place) (d : String) (place : Place) : Place :=
  if top <+: place then top ++ d :: place.drop top.length else place

theorem movedInto_append (top : Place) (d : String) (rest : Place) :
    movedInto top d (top ++ rest) = top ++ d :: rest := by
  rw [movedInto, if_pos (List.prefix_append _ _), List.drop_left]

theorem movedInto_of_not_isPrefix (h : ¬ top <+: place) : movedInto top d place = place := if_neg h

theorem prefix_movedInto_iff :
    top ++ d :: rest <+: movedInto top d place ↔ top ++ rest <+: place := by
  by_cases h : top <+: place
  · obtain ⟨below, rfl⟩ := h
    rw [movedInto_append, List.prefix_append_right_inj, List.prefix_append_right_inj,
      List.cons_prefix_cons, and_iff_right rfl]
  · rw [movedInto_of_not_isPrefix h]
    constructor
    · intro hp
      exact absurd ((List.prefix_append _ _).trans hp) h
    · intro hp
      exact absurd ((List.prefix_append _ _).trans hp) h

theorem movedInto_eq_iff : movedInto top d place = top ++ d :: rest ↔ place = top ++ rest := by
  by_cases h : top <+: place
  · obtain ⟨below, rfl⟩ := h
    rw [movedInto_append, List.append_cancel_left_eq, List.append_cancel_left_eq, List.cons.injEq,
      and_iff_right rfl]
  · rw [movedInto_of_not_isPrefix h]
    constructor
    · rintro rfl
      exact absurd (List.prefix_append _ _) h
    · rintro rfl
      exact absurd (List.prefix_append _ _) h

end Place

namespace FileTree

variable {t : FileTree} {d part : String} {rest : Place} {ps : List String}

/-- The tree once all that is in its current directory has been moved into a new one there. -/
def movedInto (t : FileTree) (d : String) : FileTree where
  entries := (t.current ++ [d], .directory) ::
    t.entries.map fun e => (Place.movedInto t.current d e.1, e.2)
  current := t.current

theorem isDirectory_movedInto (t : FileTree) (d : String) (rest : Place) :
    (t.movedInto d).isDirectory (t.current ++ d :: rest) = t.isDirectory (t.current ++ rest) := by
  rw [Bool.eq_iff_iff, isDirectory_iff, isDirectory_iff]
  constructor
  · rintro (h | h | ⟨e', he', hp, hkind⟩)
    · exact absurd h (by simp)
    · have hle := h.length_le
      simp only [movedInto, List.length_append, List.length_cons] at hle
      omega
    · rcases List.mem_cons.mp he' with rfl | he'
      · obtain rfl : rest = [] := by simpa using hp
        rw [List.append_nil]
        exact .inr (.inl List.prefix_rfl)
      · obtain ⟨e, he, rfl⟩ := List.mem_map.mp he'
        right
        right
        refine ⟨e, he, Place.prefix_movedInto_iff.mp hp, hkind.imp_left fun hne heq => ?_⟩
        exact hne (Place.movedInto_eq_iff.mpr heq)
  · have htop : ∃ e ∈ (t.movedInto d).entries,
        t.current ++ [d] <+: e.1 ∧ (e.1 ≠ t.current ++ [d] ∨ e.2 = .directory) :=
      ⟨_, .head _, List.prefix_rfl, .inr rfl⟩
    rintro (h | h | ⟨e, he, hp, hkind⟩)
    · obtain ⟨-, rfl⟩ := List.append_eq_nil_iff.mp h
      exact .inr (.inr htop)
    · obtain rfl : rest = [] := by simpa using h.eq_of_length_le (by simp)
      exact .inr (.inr htop)
    · right
      right
      refine ⟨_, .tail _ (List.mem_map_of_mem he), Place.prefix_movedInto_iff.mpr hp, ?_⟩
      exact hkind.imp_left fun hne heq => hne (Place.movedInto_eq_iff.mp heq)

theorem lookup_movedInto (top : Place) (d : String) (rest : Place)
    (entries : List (Place × Entry)) :
    (entries.map fun e => (Place.movedInto top d e.1, e.2)).lookup (top ++ d :: rest) =
      entries.lookup (top ++ rest) := by
  induction entries with
  | nil => rfl
  | cons e es ih =>
    obtain ⟨place, entry⟩ := e
    have hkey : top ++ d :: rest = Place.movedInto top d place ↔ top ++ rest = place := by
      rw [eq_comm, Place.movedInto_eq_iff, eq_comm]
    simp only [List.map_cons, lookup_cons_eq_ite, ih, hkey]

/-- What has been moved is the same as before. -/
theorem entry?_movedInto (t : FileTree) (d : String) (rest : Place) :
    entry? (t.movedInto d) (t.current ++ d :: rest) = t.entry? (t.current ++ rest) := by
  unfold entry?
  rw [isDirectory_movedInto]
  split
  · rfl
  · next hd =>
    have hne : t.current ++ d :: rest ≠ t.current ++ [d] := by
      intro he
      obtain rfl : rest = [] := by simpa using he
      exact hd (isDirectory_iff.mpr (.inr (.inl (by simp))))
    rw [movedInto, lookup_cons_eq_ite, if_neg hne, lookup_movedInto]

/-- Where a part leads from a place below the top, unless it leads above the top. -/
def followBelow (t : FileTree) (rest : Place) (part : String) : Option Place :=
  if !t.isDirectory (t.current ++ rest) then none
  else if part = "" ∨ part = "." then some rest
  else if part = ".." then some rest.dropLast
  else if (t.entry? (t.current ++ (rest ++ [part]))).isSome then some (rest ++ [part]) else none

theorem follow_eq_followBelow (t : FileTree) (hup : part = ".." → rest ≠ []) :
    t.follow (t.current ++ rest) part = (t.followBelow rest part).map (t.current ++ ·) := by
  simp only [follow, followBelow, List.append_assoc]
  split
  · rfl
  · split
    · rfl
    · split
      · next h => rw [List.dropLast_append_of_ne_nil (hup h), Option.map_some]
      · split <;> rfl

theorem follow_movedInto (t : FileTree) (d : String) (hup : part = ".." → rest ≠ []) :
    (t.movedInto d).follow (t.current ++ d :: rest) part =
      (t.followBelow rest part).map fun next => t.current ++ d :: next := by
  simp only [follow, followBelow, isDirectory_movedInto, List.append_assoc, List.cons_append,
    entry?_movedInto]
  split
  · rfl
  · split
    · rfl
    · split
      · next h =>
        rw [List.dropLast_append_of_ne_nil (List.cons_ne_nil _ _),
          List.dropLast_cons_of_ne_nil (hup h), Option.map_some]
      · split <;> rfl

theorem staysInside_of_followBelow {next : Place} (h : t.followBelow rest part = some next)
    (hin : Path.staysInside rest.length (part :: ps) = true) :
    Path.staysInside next.length ps = true := by
  rw [Path.staysInside] at hin
  rw [followBelow] at h
  split at h
  · cases h
  · split at h
    · next hidle =>
      cases h
      rcases hidle with rfl | rfl
      · exact hin
      · exact hin
    · next hidle =>
      split at h
      · next hup =>
        cases h
        rw [if_pos hup, Bool.and_eq_true] at hin
        rw [List.length_dropLast]
        exact hin.2
      · next hup =>
        have hstep : Path.isStep part = true := by
          rw [not_or] at hidle
          simp [Path.isStep, hidle]
        rw [if_neg hup, if_pos hstep] at hin
        cases (Option.ite_none_right_eq_some.mp h).2
        rw [List.length_append, List.length_singleton]
        exact hin

/-- Parts that do not lead above the top lead to the same places as before. -/
theorem exists_foldlM_movedInto (t : FileTree) (d : String)
    (hin : Path.staysInside rest.length ps = true) :
    ∃ next? : Option Place,
      ps.foldlM t.follow (t.current ++ rest) = next?.map (t.current ++ ·) ∧
      ps.foldlM (t.movedInto d).follow (t.current ++ d :: rest) =
        next?.map fun next => t.current ++ d :: next := by
  induction ps generalizing rest with
  | nil => exact ⟨some rest, rfl, rfl⟩
  | cons part ps ih =>
    have hup : part = ".." → rest ≠ [] := by
      rintro rfl rfl
      cases hin
    rw [List.foldlM_cons, List.foldlM_cons, follow_eq_followBelow t hup, follow_movedInto t d hup]
    cases hf : t.followBelow rest part with
    | none => exact ⟨none, rfl, rfl⟩
    | some next => exact ih (staysInside_of_followBelow hf hin)

end FileTree

end SchemaRoutes
