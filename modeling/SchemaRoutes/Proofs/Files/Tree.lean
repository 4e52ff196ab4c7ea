import SchemaRoutes.Files.Tree
import SchemaRoutes.Proofs.Files.Path

/-! # Where paths lead

A path that is joined to a directory leads on from where the directory stands, however it is spelt.
The parent of the path of a file stands where the file lies.
-/

namespace SchemaRoutes

namespace Place

variable {place place' : Place}

theorem toList_path (place : Place) :
    place.path.toList = (place.map String.toList).flatMap ('/' :: ·) := by
  rw [path, String.toList_join, List.flatMap_map, List.flatMap_map]
  exact List.flatMap_congr fun name _ => by simp

theorem path_injective (h : ∀ name ∈ place, '/' ∉ name.toList)
    (h' : ∀ name ∈ place', '/' ∉ name.toList) (hp : place.path = place'.path) :
    place = place' := by
  have hsplit : ∀ {place : Place}, (∀ name ∈ place, '/' ∉ name.toList) →
      Text.splitChars '/' place.path.toList = [] :: place.map String.toList := by
    intro place h
    rw [toList_path, ← List.nil_append (List.flatMap _ _)]
    exact Text.splitChars_join List.not_mem_nil (List.forall_mem_map.mpr h)
  have hl := (hsplit h).symm.trans (hp ▸ hsplit h')
  exact List.map_injective_iff.mpr (fun _ _ => String.ext) (List.cons.inj hl).2

end Place

namespace FileTree

variable {t : FileTree} {place next : Place} {part dir path : String} {ps : List String}

theorem isDirectory_iff : t.isDirectory place = true ↔ place = [] ∨ place <+: t.current ∨
    ∃ e ∈ t.entries, place <+: e.1 ∧ (e.1 ≠ place ∨ e.2 = .directory) := by
  simp only [isDirectory, Bool.or_eq_true, List.isEmpty_iff, List.isPrefixOf_iff_prefix,
    List.any_eq_true, Bool.and_eq_true, bne_iff_ne, beq_iff_eq, or_assoc]

theorem isDirectory_of_prefix (h : t.isDirectory place = true) (hp : next <+: place) :
    t.isDirectory next = true := by
  rw [isDirectory_iff] at h ⊢
  rcases h with rfl | h | ⟨e, he, h, hkind⟩
  · exact .inl (List.prefix_nil.mp hp)
  · exact .inr (.inl (hp.trans h))
  · refine .inr (.inr ⟨e, he, hp.trans h, ?_⟩)
    by_cases hne : e.1 = next
    · have heq : next = place := hp.eq_of_length_le (hne ▸ h.length_le)
      exact heq ▸ hkind
    · exact .inl hne

theorem isDirectory_dropLast (h : t.isDirectory place = true) :
    t.isDirectory place.dropLast = true :=
  isDirectory_of_prefix h (List.dropLast_prefix place)

theorem isDirectory_of_follow (h : t.follow place part = some next) :
    t.isDirectory place = true := by
  rw [follow] at h
  by_contra hn
  simp [hn] at h

theorem follow_of_not_isStep (h : t.isDirectory place = true) (hp : Path.isStep part = false) :
    t.follow place part = some place := by
  have hi : part = "" ∨ part = "." := by
    by_contra hn
    rw [not_or] at hn
    simp [Path.isStep, hn.1, hn.2] at hp
  rw [follow, if_neg (by simp [h]), if_pos hi]

theorem foldlM_follow_idle (h : t.isDirectory place = true)
    (hp : ∀ p ∈ ps, Path.isStep p = false) : ps.foldlM t.follow place = some place := by
  induction ps with
  | nil => rfl
  | cons p ps ih =>
    obtain ⟨hp, hps⟩ := List.forall_mem_cons.mp hp
    rw [List.foldlM_cons, follow_of_not_isStep h hp]
    exact ih hps

theorem follow_eq_some_of_not_isDirectory (h : t.follow place part = some next)
    (hn : t.isDirectory next = false) :
    t.isDirectory place = true ∧ Path.isStep part = true ∧ part ≠ ".." ∧
      next = place ++ [part] := by
  have hd := isDirectory_of_follow h
  have hs : Path.isStep part = true := by
    by_contra hs
    rw [Bool.not_eq_true] at hs
    rw [follow_of_not_isStep hd hs] at h
    cases h
    cases hd.symm.trans hn
  have hi : ¬ (part = "" ∨ part = ".") := by
    rintro (rfl | rfl) <;> cases hs
  rw [follow, if_neg (by simp [hd]), if_neg hi] at h
  have hup : part ≠ ".." := by
    intro hp
    rw [if_pos hp] at h
    cases h
    cases (isDirectory_dropLast hd).symm.trans hn
  rw [if_neg hup] at h
  exact ⟨hd, hs, hup, (Option.some.inj (Option.ite_none_right_eq_some.mp h).2).symm⟩

/-- The path leads to the place, were it not for its length. -/
def StandsAt (t : FileTree) (path : String) (place : Place) : Prop :=
  (Path.parts path).foldlM t.follow (t.start path) = some place

instance : Decidable (t.StandsAt path place) := inferInstanceAs (Decidable (_ = _))

theorem StandsAt.unique (h : t.StandsAt path place) (h' : t.StandsAt path next) : place = next :=
  Option.some.inj (h.symm.trans h')

theorem resolve?_eq_some_iff :
    t.resolve? path = some place ↔ Path.isUsable path = true ∧ t.StandsAt path place := by
  rw [resolve?, followAll]
  split
  · next h => exact ⟨fun hs => ⟨h, hs⟩, And.right⟩
  · next h => exact ⟨nofun, fun hs => absurd hs.1 h⟩

theorem standsAt_empty : t.StandsAt "" t.current := by
  have hd : t.isDirectory t.current = true := by
    simp [isDirectory]
  exact foldlM_follow_idle hd (by decide)

theorem foldlM_follow_cons :
    (part :: ps).foldlM t.follow place = some next ↔
      ∃ mid, t.follow place part = some mid ∧ ps.foldlM t.follow mid = some next := by
  rw [List.foldlM_cons, Option.bind_eq_bind, Option.bind_eq_some_iff]

theorem foldlM_follow_append {qs : List String} :
    (ps ++ qs).foldlM t.follow place = some next ↔
      ∃ mid, ps.foldlM t.follow place = some mid ∧ qs.foldlM t.follow mid = some next := by
  rw [List.foldlM_append, Option.bind_eq_bind, Option.bind_eq_some_iff]

theorem foldlM_follow_concat :
    (ps ++ [part]).foldlM t.follow place = some next ↔
      ∃ mid, ps.foldlM t.follow place = some mid ∧ t.follow mid part = some next := by
  rw [foldlM_follow_append]
  refine exists_congr fun mid => and_congr_right fun _ => ?_
  rw [foldlM_follow_cons]
  exact ⟨fun ⟨_, h, he⟩ => Option.some.inj he ▸ h, fun h => ⟨next, h, rfl⟩⟩

theorem follow_idle_eq_some (h : t.follow place part = some next)
    (hp : Path.isStep part = false) : next = place :=
  Option.some.inj (h.symm.trans (follow_of_not_isStep (isDirectory_of_follow h) hp))

theorem foldlM_follow_join (h : t.StandsAt dir place) (hr : Path.isAbsolute path = false) :
    (Path.parts (Path.join dir path)).foldlM t.follow (t.start (Path.join dir path)) =
      (Path.parts path).foldlM t.follow place := by
  by_cases he : dir = ""
  · subst he
    rw [h.unique standsAt_empty, Path.join, hr]
    simp [start, hr]
  have hstart : ∀ rest, t.start (dir ++ rest) = t.start dir := fun rest => by
    rw [start, Path.isAbsolute_append he, start]
  rw [StandsAt] at h
  rw [Path.join, hr, Bool.false_or, if_neg (by simpa using he)]
  split
  · next hs =>
    obtain ⟨init, rfl⟩ := Path.exists_of_endsWithSlash hs
    rw [hstart, Path.parts_append_slash, List.foldlM_append]
    have hparts : Path.parts (init ++ "/") = Path.parts init ++ [""] := by
      rw [← String.append_empty (s := init ++ "/"), Path.parts_append_slash]
      rfl
    rw [hparts, foldlM_follow_concat] at h
    obtain ⟨mid, h, hlast⟩ := h
    rw [h, follow_idle_eq_some hlast rfl]
    rfl
  · rw [String.append_assoc, hstart, ← String.append_assoc, Path.parts_append_slash,
      List.foldlM_append, h]
    rfl

theorem StandsAt.join (h : t.StandsAt dir place) (hr : Path.isAbsolute path = false)
    (hf : (Path.parts path).foldlM t.follow place = some next) :
    t.StandsAt (Path.join dir path) next :=
  (foldlM_follow_join h hr).trans hf

theorem foldlM_follow_dropIdle (h : ps.foldlM t.follow place = some next) :
    (Path.dropIdle ps).foldlM t.follow place = some next := by
  obtain ⟨idle, hp, hidle⟩ := Path.exists_dropIdle ps
  rw [hp, foldlM_follow_append] at h
  obtain ⟨mid, h, hi⟩ := h
  cases idle with
  | nil => exact h.trans hi
  | cons p qs =>
    obtain ⟨_, hfollow, -⟩ := foldlM_follow_cons.mp hi
    rw [foldlM_follow_idle (isDirectory_of_follow hfollow) hidle] at hi
    exact h.trans hi

/-- Parts without slashes lead where their path leads. -/
theorem standsAt_joinParts (hs : ∀ p ∈ ps, '/' ∉ p.toList) (hf : ∀ p ∈ ps.head?, p ≠ "")
    (h : ps.foldlM t.follow t.current = some place) : t.StandsAt (Path.joinParts ps) place := by
  cases ps with
  | nil =>
    cases h
    exact standsAt_empty
  | cons first rest =>
    have hp := Path.parts_joinParts (List.cons_ne_nil first rest) hs
    have ha := Path.isAbsolute_eq_false hp (hf first rfl)
    rwa [StandsAt, hp, start, ha]

theorem standsAt_slash_joinParts (hs : ∀ p ∈ ps, '/' ∉ p.toList)
    (h : ps.foldlM t.follow [] = some place) : t.StandsAt ("/" ++ Path.joinParts ps) place := by
  have hroot : t.follow [] "" = some [] := follow_of_not_isStep rfl rfl
  have ha : Path.isAbsolute ("/" ++ Path.joinParts ps) = true := by
    rw [Path.isAbsolute_append (by decide)]
    rfl
  rw [StandsAt, Path.parts_slash_append, start, ha, if_pos rfl, foldlM_follow_cons]
  refine ⟨[], hroot, ?_⟩
  cases ps with
  | nil =>
    cases h
    exact foldlM_follow_idle rfl (by decide)
  | cons first rest => rwa [Path.parts_joinParts (List.cons_ne_nil first rest) hs]

/-- The parent of a path to what is no directory stands at the place in front. -/
theorem standsAt_parent (h : t.StandsAt path place) (hn : t.isDirectory place = false) :
    ∃ dir, Path.parent? path = some dir ∧ t.StandsAt dir place.dropLast := by
  obtain ⟨init, last, hp⟩ := Path.exists_parts_eq_concat path
  have hslash : ∀ p ∈ init, '/' ∉ p.toList := fun p hm =>
    Path.slash_not_mem_of_mem_parts (hp ▸ List.mem_append_left _ hm)
  rw [StandsAt, hp, foldlM_follow_concat] at h
  obtain ⟨front, h, hlast⟩ := h
  obtain ⟨hd, hs, -, rfl⟩ := follow_eq_some_of_not_isDirectory hlast hn
  rw [List.dropLast_concat]
  cases init with
  | nil =>
    refine ⟨_, Path.parent?_of_step hp hs (by simp), ?_⟩
    have ha := Path.isAbsolute_eq_false hp (Path.ne_empty_of_isStep hs)
    rw [start, ha] at h
    cases h
    exact standsAt_empty
  | cons first rest =>
    by_cases hfirst : first = ""
    · subst hfirst
      refine ⟨_, Path.parent?_of_absolute hp hs, ?_⟩
      rw [start, Path.isAbsolute_of_parts hp (by simp), if_pos rfl, foldlM_follow_cons] at h
      obtain ⟨root, hroot, h⟩ := h
      cases follow_idle_eq_some hroot rfl
      exact standsAt_slash_joinParts
        (fun p hm => hslash p (.tail _ (Path.mem_of_mem_dropIdle hm))) (foldlM_follow_dropIdle h)
    have ha := Path.isAbsolute_eq_false hp hfirst
    rw [start, ha] at h
    by_cases hdot : first = "."
    · subst hdot
      refine ⟨_, Path.parent?_of_dot hp hs, standsAt_joinParts ?_ (by simp) ?_⟩
      · exact List.forall_mem_cons.mpr ⟨by decide, fun p hm =>
          hslash p (.tail _ (Path.mem_of_mem_dropIdle hm))⟩
      · obtain ⟨mid, hmid, h⟩ := foldlM_follow_cons.mp h
        exact foldlM_follow_cons.mpr ⟨mid, hmid, foldlM_follow_dropIdle h⟩
    · have hstep : Path.isStep first = true := by simp [Path.isStep, hfirst, hdot]
      refine ⟨_, Path.parent?_of_step hp hs fun _ h => Option.some.inj h ▸ hstep, ?_⟩
      refine standsAt_joinParts (fun p hm => hslash p (Path.mem_of_mem_dropIdle hm)) ?_
        (foldlM_follow_dropIdle h)
      rw [Path.dropIdle_cons rest hstep]
      exact fun _ h => Option.some.inj h ▸ hfirst

/-- Names as a system has them, and none with a bar. -/
def HasPlainNames (t : FileTree) : Prop :=
  ∀ e ∈ t.entries, ∀ name ∈ e.1, '/' ∉ name.toList ∧ '|' ∉ name.toList

instance (t : FileTree) : Decidable t.HasPlainNames :=
  inferInstanceAs (Decidable (∀ e ∈ t.entries, ∀ name ∈ e.1, _))

variable {content : Content}

theorem isDirectory_of_file (h : t.entry? place = some (.file content)) :
    t.isDirectory place = false := by
  unfold entry? at h
  split at h
  · cases h
  · next hd => exact Bool.not_eq_true _ ▸ hd

theorem mem_entries_of_file (h : t.entry? place = some (.file content)) :
    (place, .file content) ∈ t.entries := by
  have hd := isDirectory_of_file h
  unfold entry? at h
  rw [if_neg (by simp [hd])] at h
  obtain ⟨before, after, he, -⟩ := List.lookup_eq_some_iff.mp h
  exact he ▸ List.mem_append_right before (List.mem_cons_self ..)

theorem HasPlainNames.of_file (hn : t.HasPlainNames) (h : t.entry? place = some (.file content)) :
    (∀ name ∈ place, '/' ∉ name.toList) ∧ '|' ∉ place.path.toList := by
  have hplain := hn _ (mem_entries_of_file h)
  refine ⟨fun name hm => (hplain name hm).1, ?_⟩
  rw [Place.toList_path, List.mem_flatMap]
  rintro ⟨cs, hm, hc⟩
  obtain ⟨name, hname, rfl⟩ := List.mem_map.mp hm
  rcases List.mem_cons.mp hc with hc | hc
  · cases hc
  · exact (hplain name hname).2 hc

end FileTree

end SchemaRoutes
