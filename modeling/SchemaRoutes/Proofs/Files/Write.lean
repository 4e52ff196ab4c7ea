import SchemaRoutes.Proofs.Files.Tree
import SchemaRoutes.Proofs.Json.Members

/-! # Writing a file

A text is put where no directory is, into a directory that is there. So no place becomes a
directory or stops being one, and what is left is the same for every path that does not lead to
the file.
-/

namespace SchemaRoutes.FileTree

variable {t t' : FileTree} {place front next q : Place} {path text part name : String}
  {entry : Entry} {content : Content} {es : List (Place × Entry)} {ps : List String}

theorem lookup_setEntry (q : Place) :
    (setEntry place entry es).lookup q = if q = place then some entry else es.lookup q := by
  induction es with
  | nil => exact lookup_cons_eq_ite
  | cons e es ih =>
    obtain ⟨key, old⟩ := e
    rw [setEntry]
    split
    · next hk =>
      subst hk
      rw [lookup_cons_eq_ite, lookup_cons_eq_ite]
      split <;> rfl
    · next hk =>
      rw [lookup_cons_eq_ite, lookup_cons_eq_ite, ih]
      split
      · next hq => rw [if_neg (hq ▸ hk)]
      · rfl

theorem mem_setEntry {e : Place × Entry} (h : e ∈ setEntry place entry es) :
    e = (place, entry) ∨ e ∈ es := by
  induction es with
  | nil => exact .inl (List.mem_singleton.mp h)
  | cons d es ih =>
    rw [setEntry] at h
    split at h
    · exact (List.mem_cons.mp h).imp_right (.tail _)
    · rcases List.mem_cons.mp h with rfl | h
      · exact .inr (.head _)
      · exact (ih h).imp_right (.tail _)

theorem mem_setEntry_self (place : Place) (entry : Entry) (es : List (Place × Entry)) :
    (place, entry) ∈ setEntry place entry es := by
  induction es with
  | nil => exact .head _
  | cons d es ih =>
    rw [setEntry]
    split
    · exact .head _
    · exact .tail _ ih

theorem mem_setEntry_of_ne {e : Place × Entry} (h : e ∈ es) (hne : e.1 ≠ place) :
    e ∈ setEntry place entry es := by
  induction es with
  | nil => cases h
  | cons d es ih =>
    rw [setEntry]
    rcases List.mem_cons.mp h with rfl | h
    · rw [if_neg hne]
      exact .head _
    · split
      · exact .tail _ h
      · exact .tail _ (ih h)

theorem isDirectory_setEntry (hfree : t.isDirectory (front ++ [name]) = false)
    (hfront : t.isDirectory front = true) (q : Place) :
    isDirectory { t with entries := setEntry (front ++ [name]) (.file content) t.entries } q =
      t.isDirectory q := by
  rw [Bool.eq_iff_iff]
  constructor
  · intro h
    rcases isDirectory_iff.mp h with rfl | hc | ⟨e, he, hp, hkind⟩
    · exact isDirectory_iff.mpr (.inl rfl)
    · exact isDirectory_iff.mpr (.inr (.inl hc))
    rcases mem_setEntry he with rfl | he
    · -- Only what stands in front of the file is a directory on its account.
      rcases List.prefix_concat_iff.mp hp with rfl | hp
      · exact absurd rfl (hkind.resolve_right nofun)
      · exact isDirectory_of_prefix hfront hp
    · exact isDirectory_iff.mpr (.inr (.inr ⟨e, he, hp, hkind⟩))
  · intro h
    rcases isDirectory_iff.mp h with rfl | hc | ⟨e, he, hp, hkind⟩
    · exact isDirectory_iff.mpr (.inl rfl)
    · exact isDirectory_iff.mpr (.inr (.inl hc))
    refine isDirectory_iff.mpr (.inr (.inr ?_))
    by_cases hplace : e.1 = front ++ [name]
    · have hne : front ++ [name] ≠ q := by
        rintro rfl
        cases hfree.symm.trans h
      exact ⟨_, mem_setEntry_self _ _ _, hplace ▸ hp, .inl hne⟩
    · exact ⟨e, mem_setEntry_of_ne he hplace, hp, hkind⟩

/-- The text is at the place now, where no directory was, and nothing else has changed. -/
structure Wrote (t : FileTree) (place : Place) (text : String) (t' : FileTree) : Prop where
  current : t'.current = t.current
  directories : ∀ q, t'.isDirectory q = t.isDirectory q
  free : t.isDirectory place = false
  entry : t'.entry? place = some (.file (.text text))
  others : ∀ q, q ≠ place → t'.entry? q = t.entry? q

namespace Wrote

theorem of_setEntry (hfree : t.isDirectory (front ++ [name]) = false)
    (hfront : t.isDirectory front = true) :
    t.Wrote (front ++ [name]) text
      { t with entries := setEntry (front ++ [name]) (.file (.text text)) t.entries } where
  current := rfl
  directories := isDirectory_setEntry hfree hfront
  free := hfree
  entry := by
    unfold entry?
    rw [isDirectory_setEntry hfree hfront, hfree, lookup_setEntry, if_pos rfl]
    rfl
  others q hq := by
    unfold entry?
    rw [isDirectory_setEntry hfree hfront, lookup_setEntry, if_neg hq]

variable (h : t.Wrote place text t')
include h

/-- A part leads where it led before, or from nowhere to the file. -/
theorem follow_cases (q : Place) (part : String) : t'.follow q part = t.follow q part ∨
    t.follow q part = none ∧ t'.follow q part = some place := by
  unfold follow
  rw [h.directories]
  split
  · exact .inl rfl
  split
  · exact .inl rfl
  split
  · exact .inl rfl
  dsimp only
  by_cases hn : q ++ [part] = place
  · rw [hn, h.entry]
    cases t.entry? place with
    | none => exact .inr ⟨rfl, rfl⟩
    | some _ => exact .inl rfl
  · rw [h.others _ hn]
    exact .inl rfl

theorem foldlM_follow_cases (q : Place) (ps : List String) :
    ps.foldlM t'.follow q = ps.foldlM t.follow q ∨
      ps.foldlM t.follow q = none ∧ ps.foldlM t'.follow q = some place := by
  induction ps generalizing q with
  | nil => exact .inl rfl
  | cons part ps ih =>
    rw [List.foldlM_cons, List.foldlM_cons]
    rcases h.follow_cases q part with he | ⟨hnone, hplace⟩
    · rw [he]
      cases t.follow q part with
      | none => exact .inl rfl
      | some mid => exact ih mid
    · rw [hnone, hplace]
      -- The file is no directory, so nothing leads on from it.
      cases ps with
      | nil => exact .inr ⟨rfl, rfl⟩
      | cons part ps =>
        have hstop : t'.follow place part = none := by
          rw [follow, h.directories, h.free]
          rfl
        refine .inl ?_
        change (part :: ps).foldlM t'.follow place = none
        rw [List.foldlM_cons, hstop]
        rfl

theorem followAll_cases (path : String) (ps : List String) :
    t'.followAll path ps = t.followAll path ps ∨
      t.followAll path ps = none ∧ t'.followAll path ps = some place := by
  unfold followAll start
  rw [h.current]
  split
  · exact h.foldlM_follow_cases _ ps
  · exact .inl rfl

theorem followAll_mono (hf : t.followAll path ps = some next) :
    t'.followAll path ps = some next := by
  rcases h.followAll_cases path ps with he | ⟨hnone, -⟩
  · exact he.trans hf
  · cases hnone.symm.trans hf

theorem read_eq (hp : t'.resolve? path ≠ some place) : t'.read path = t.read path := by
  have hr : t'.resolve? path = t.resolve? path :=
    (h.followAll_cases path _).resolve_right fun hplace => hp hplace.2
  rw [read, read, hr]
  rw [hr] at hp
  cases hq : t.resolve? path with
  | none => rfl
  | some q =>
    have hne : q ≠ place := fun he => hp (he ▸ hq)
    rw [Option.bind_some, Option.bind_some, h.others q hne]

theorem read_of_resolve? (hp : t'.resolve? path = some place) : t'.read path = .text text := by
  rw [read, hp, Option.bind_some, h.entry]

end Wrote

theorem follow_eq_of_entry? (hd : t.isDirectory front = true) (hs : Path.isStep part = true)
    (hup : part ≠ "..") (he : (t.entry? (front ++ [part])).isSome = true) :
    t.follow front part = some (front ++ [part]) := by
  have hi : ¬ (part = "" ∨ part = ".") := by
    rintro (rfl | rfl) <;> cases hs
  rw [follow, if_neg (by simp [hd]), if_neg hi, if_neg hup]
  exact if_pos he

theorem resolve?_of_concat (hp : Path.parts path = ps ++ [name])
    (hfront : t.followAll path ps = some front) (hlast : t.follow front name = some place) :
    t.resolve? path = some place := by
  unfold followAll at hfront
  rw [resolve?, followAll, hp]
  split at hfront
  · next hu =>
    rw [if_pos hu, foldlM_follow_concat]
    exact ⟨front, hfront, hlast⟩
  · cases hfront

/-- What is written to a path goes to a name in a directory that is there. -/
theorem exists_of_target? (h : t.target? path = some place) :
    ∃ init front name, Path.parts path = init ++ [name] ∧ t.followAll path init = some front ∧
      place = front ++ [name] ∧ t.isDirectory front = true ∧ Path.isStep name = true ∧
      name ≠ ".." ∧ t.isDirectory place = false := by
  obtain ⟨init, name, hp⟩ := Path.exists_parts_eq_concat path
  unfold target? at h
  cases hr : t.resolve? path with
  | some found =>
    simp only [hr] at h
    split at h
    · cases h
    · next hn =>
      cases h
      rw [Bool.not_eq_true] at hn
      obtain ⟨hu, hs⟩ := resolve?_eq_some_iff.mp hr
      rw [StandsAt, hp, foldlM_follow_concat] at hs
      obtain ⟨front, hfront, hlast⟩ := hs
      obtain ⟨hd, hstep, hup, rfl⟩ := follow_eq_some_of_not_isDirectory hlast hn
      refine ⟨init, front, name, hp, ?_, rfl, hd, hstep, hup, hn⟩
      rw [followAll, if_pos hu, hfront]
  | none =>
    simp only [hr, hp, List.getLast?_concat, List.dropLast_concat] at h
    split at h
    · cases h
    · cases h
    · cases h
    · cases h
    · next last hempty hdot hup hlast =>
      cases hlast
      obtain ⟨front, hfront, h⟩ := Option.bind_eq_some_iff.mp h
      split at h
      · next hd =>
        cases h
        have hd := (Bool.and_eq_true_iff.mp hd).1
        have hstep : Path.isStep name = true := by
          simp only [Path.isStep, Bool.and_eq_true, bne_iff_ne]
          exact ⟨hempty, hdot⟩
        refine ⟨init, front, name, hp, hfront, rfl, hd, hstep, hup, ?_⟩
        -- If anything were there, the path would lead to it.
        by_contra hdir
        rw [Bool.not_eq_false] at hdir
        have hlast := follow_eq_of_entry? hd hstep hup (by unfold entry?; rw [if_pos hdir]; rfl)
        cases hr.symm.trans (resolve?_of_concat hp hfront hlast)
      · cases h

theorem of_write? (h : t.write? path text = some t') : ∃ place, t.target? path = some place ∧
    t.Wrote place text t' ∧ t'.resolve? path = some place := by
  obtain ⟨place, htarget, rfl⟩ := Option.map_eq_some_iff.mp h
  obtain ⟨init, front, name, hp, hfront, rfl, hd, hs, hup, hfree⟩ := exists_of_target? htarget
  have hw : t.Wrote (front ++ [name]) text _ := .of_setEntry hfree hd
  refine ⟨_, htarget, hw, ?_⟩
  have hd' := (hw.directories front).trans hd
  have hlast := follow_eq_of_entry? hd' hs hup (by rw [hw.entry]; rfl)
  exact resolve?_of_concat hp (hw.followAll_mono hfront) hlast

end SchemaRoutes.FileTree
