import SchemaRoutes.Proofs.Files.Moved
import SchemaRoutes.Proofs.Source.Termination

/-! # References between files that have been moved

Files that refer to each other by inward paths find each other where they have been moved, too, as
long as no path gets too long. The names of places change, but two of them are the same afterwards
if they were before, so inlining enters the same places and reports the same circles.
-/

namespace SchemaRoutes

open SchemaRoutes.Path (IsName SpeltBelow)

/-- A relative path that never goes up. -/
structure Path.IsInward (path : String) : Prop where
  relative : isAbsolute path = false
  noUp : ".." ∉ parts path

/-- What loading comes to, and what it comes to where the files have been moved. The values are
related, and the only failure that is new is that of a path that has got too long. -/
abbrev MovedOutcome {α : Type} (rel : α → α → Prop) :
    Except SourceError α → Except SourceError α → Prop :=
  Tied (fun _ => False) SourceError.IsOverlong (fun _ _ => True) rel

namespace FileTree

variable {t : FileTree} {d dir dir' path path' location : String} {place rest : Place}

/-- A directory so far below the current one, and how its path is spelt where it has been moved. -/
structure MovesTo (t : FileTree) (d : String) (rest : Place) (dir dir' : String) : Prop where
  spelt : SpeltBelow d dir dir'
  stands : t.StandsAt dir (t.current ++ rest)
  stands' : (t.movedInto d).StandsAt dir' (t.current ++ d :: rest)

structure Arrives (t : FileTree) (d : String) (rest : Place) (path path' : String) : Prop where
  ne_nil : rest ≠ []
  resolve : t.resolve? path = some (t.current ++ rest)
  resolve' : (t.movedInto d).resolve? path' = some (t.current ++ d :: rest)
  parents : ∃ up up', Path.parent? path = some up ∧ Path.parent? path' = some up' ∧
    t.MovesTo d rest.dropLast up up'

theorem isDirectory_current (t : FileTree) : t.isDirectory t.current = true :=
  isDirectory_iff.mpr (.inr (.inl List.prefix_rfl))

theorem movesTo_empty (t : FileTree) (hd : IsName d) : t.MovesTo d [] "" d where
  spelt := Path.spelt_empty d
  stands := by
    rw [List.append_nil]
    exact standsAt_empty
  stands' := by
    have hparts : Path.parts d = [d] := Path.parts_of_not_mem hd.slash
    have ha := Path.isAbsolute_eq_false hparts (Path.ne_empty_of_isStep hd.step)
    have hentry : entry? (t.movedInto d) (t.current ++ [d]) = some .directory := by
      rw [entry?_movedInto, List.append_nil]
      exact if_pos t.isDirectory_current
    have hidle : ¬ (d = "" ∨ d = ".") := by
      rintro (rfl | rfl) <;> cases hd.step
    have hfollow : (t.movedInto d).follow t.current d = some (t.current ++ [d]) := by
      have hdir : (t.movedInto d).isDirectory t.current = true :=
        (t.movedInto d).isDirectory_current
      simp [follow, hdir, hidle, hd.up, hentry]
    rw [StandsAt, hparts, start, ha]
    exact foldlM_follow_cons.mpr ⟨_, hfollow, rfl⟩

/-- A directory is no document. -/
theorem exists_load_join_empty (h : t.StandsAt dir place) :
    ∃ e, t.load (Path.join dir "") = .error e := by
  cases hl : t.load (Path.join dir "") with
  | error e => exact ⟨e, rfl⟩
  | ok value =>
    obtain ⟨file, text, hfile, hentry, -⟩ := Reference.exists_file_of_load hl
    obtain ⟨-, hs⟩ := resolve?_eq_some_iff.mp hfile
    obtain ⟨mid, hfollow, hmid⟩ := foldlM_follow_cons.mp ((foldlM_follow_join h rfl).symm.trans hs)
    cases hmid
    obtain rfl := follow_idle_eq_some hfollow rfl
    cases (isDirectory_of_file hentry).symm.trans (isDirectory_of_follow hfollow)

theorem resolve?_join (h : t.StandsAt dir place) (ha : Path.isAbsolute location = false)
    (hu : Path.isUsable (Path.join dir location) = true) :
    t.resolve? (Path.join dir location) = (Path.parts location).foldlM t.follow place := by
  rw [resolve?, followAll, if_pos hu, foldlM_follow_join h ha]

namespace MovesTo

variable (h : t.MovesTo d rest dir dir') (hd : IsName d)
include h hd

theorem isUsable_join (hl : location ≠ "") (ha : Path.isAbsolute location = false)
    (hu : Path.isUsable (Path.join dir' location) = true) :
    Path.isUsable (Path.join dir location) = true := by
  by_contra hn
  rw [Bool.not_eq_true] at hn
  have hlong := Path.le_utf8ByteSize (Path.join_ne_empty dir hl) hn
  have hle := h.spelt.utf8ByteSize_le hd hl ha
  rw [Path.isUsable, Bool.and_eq_true, decide_eq_true_eq] at hu
  omega

theorem arrives {next : Place} (hl : location ≠ "") (ha : Path.isAbsolute location = false)
    (hr : t.resolve? (Path.join dir location) = some (t.current ++ next))
    (hr' : (t.movedInto d).resolve? (Path.join dir' location) = some (t.current ++ d :: next))
    (hn : t.isDirectory (t.current ++ next) = false) :
    t.Arrives d next (Path.join dir location) (Path.join dir' location) := by
  have hne : next ≠ [] := by
    rintro rfl
    rw [List.append_nil, isDirectory_current] at hn
    cases hn
  obtain ⟨-, hs⟩ := resolve?_eq_some_iff.mp hr
  obtain ⟨-, hs'⟩ := resolve?_eq_some_iff.mp hr'
  have hlast : ∀ p ∈ (Path.parts location).getLast?, Path.isStep p = true := by
    obtain ⟨init, last, hparts⟩ := Path.exists_parts_eq_concat location
    have hfold := (foldlM_follow_join h.stands ha).symm.trans hs
    rw [hparts, foldlM_follow_concat] at hfold
    obtain ⟨mid, -, hfollow⟩ := hfold
    obtain ⟨-, hstep, -⟩ := follow_eq_some_of_not_isDirectory hfollow hn
    rw [hparts, List.getLast?_concat]
    exact fun p hp => Option.some.inj hp ▸ hstep
  obtain ⟨up, up', hup, hup', hspelt⟩ := h.spelt.exists_parents hd hl ha hlast
  obtain ⟨_, he, hstands⟩ := standsAt_parent hs hn
  cases hup.symm.trans he
  obtain ⟨_, he', hstands'⟩ := standsAt_parent hs' (by rwa [isDirectory_movedInto])
  cases hup'.symm.trans he'
  refine ⟨hne, hr, hr', up, up', hup, hup', hspelt, ?_, ?_⟩
  · rwa [List.dropLast_append_of_ne_nil hne] at hstands
  · rwa [List.dropLast_append_of_ne_nil (List.cons_ne_nil _ _),
      List.dropLast_cons_of_ne_nil hne] at hstands'

theorem load (ha : Path.isAbsolute location = false)
    (hin : Path.staysInside rest.length (Path.parts location) = true) :
    MovedOutcome (fun value value' => value = value' ∧
        ∃ next, t.Arrives d next (Path.join dir location) (Path.join dir' location))
      (t.load (Path.join dir location)) ((t.movedInto d).load (Path.join dir' location)) := by
  by_cases hl : location = ""
  · subst hl
    obtain ⟨e, he⟩ := exists_load_join_empty h.stands
    obtain ⟨e', he'⟩ := exists_load_join_empty h.stands'
    rw [he, he']
    exact .both trivial
  cases hu' : Path.isUsable (Path.join dir' location) with
  | false =>
    rw [Reference.load_of_not_isUsable hu']
    exact .right ⟨_, rfl, Path.le_utf8ByteSize (Path.join_ne_empty _ hl) hu'⟩
  | true =>
  have hu := h.isUsable_join hd hl ha hu'
  obtain ⟨next?, hnext, hnext'⟩ := exists_foldlM_movedInto t d hin
  have hr := (resolve?_join h.stands ha hu).trans hnext
  have hr' := (resolve?_join h.stands' ha hu').trans hnext'
  unfold FileTree.load read
  rw [hr, hr']
  cases next? with
  | none => exact .both trivial
  | some next =>
    simp only [Option.map_some, Option.bind_some, entry?_movedInto]
    match hentry : t.entry? (t.current ++ next) with
    | none => exact .both trivial
    | some (.file (.text text)) =>
      have harrives := h.arrives hd hl ha hr hr' (isDirectory_of_file hentry)
      exact .refl _ (fun _ => ⟨rfl, next, harrives⟩) fun _ => trivial
    | some (.file .binary) => exact .both trivial
    | some .directory => exact .both trivial

end MovesTo

end FileTree

namespace Reference

open FileTree (MovesTo)

variable {t : FileTree} {d dir dir' location : String} {top rest : Place} {doc doc' : Document}
  {value : Json} {target : Target}

/-- The keys of a document before and after it is moved. That at hand has none. -/
def MovedKey (top : Place) (d key key' : String) : Prop :=
  key = "" ∧ key' = "" ∨ ∃ rest : Place, rest ≠ [] ∧
    key = Place.path (top ++ rest) ∧ key' = Place.path (top ++ d :: rest)

def MovedPlace (top : Place) (d place place' : String) : Prop :=
  ∃ key key' fragment, MovedKey top d key key' ∧
    place = placeKey key fragment ∧ place' = placeKey key' fragment

structure MovedDocument (t : FileTree) (d : String) (doc doc' : Document) : Prop where
  root : doc.root = doc'.root
  key : MovedKey t.current d doc.key doc'.key
  directory : ∃ rest, t.MovesTo d rest doc.directory doc'.directory

def IsInward (reference : String) : Prop :=
  isUrl (parts reference).1 = false → Path.IsInward (parts reference).1

structure StaysInside (t : FileTree) (doc : Document) (value : Json) : Prop where
  own : ∀ reference ∈ all value, IsInward reference
  reached : ∀ target, Reaches t doc value target →
    ∀ reference ∈ all target.value, IsInward reference

theorem StaysInside.at_target {reference : String} (h : StaysInside t doc value)
    (hr : reference ∈ all value) (hl : locate t doc reference = .ok target) :
    StaysInside t target.document target.value where
  own := h.reached target (.one hr hl)
  reached _ hreaches := h.reached _ (.more hr hl hreaches)

theorem StaysInside.of_locate (hown : ∀ reference ∈ all value, IsInward reference)
    (hnext : ∀ reference ∈ all value, ∀ target, locate t doc reference = .ok target →
      StaysInside t target.document target.value) : StaysInside t doc value where
  own := hown
  reached target h := by
    cases h with
    | one hr hl => exact (hnext _ hr _ hl).own
    | more hr hl h => exact (hnext _ hr _ hl).reached target h

theorem StaysInside.of_all_eq_nil (h : all value = []) : StaysInside t doc value :=
  .of_locate (by simp [h]) (by simp [h])

theorem toList_placeKey (place : Place) (fragment : String) :
    (placeKey place.path fragment).toList =
      (place.flatMap fun name => '/' :: name.toList) ++ '|' :: fragment.toList := by
  simp [placeKey, Place.toList_path, List.flatMap_map]

theorem placeKey_empty_ne {fragment fragment' : String} (h : rest ≠ []) :
    placeKey "" fragment ≠ placeKey (Place.path (top ++ rest)) fragment' := by
  intro he
  have hl := congrArg String.toList he
  rw [toList_placeKey] at hl
  obtain ⟨name, names, hcons⟩ :=
    List.exists_cons_of_ne_nil (List.append_ne_nil_of_right_ne_nil top h)
  rw [hcons, List.flatMap_cons, List.cons_append, List.cons_append] at hl
  have hstart : (placeKey "" fragment).toList = '|' :: fragment.toList := by simp [placeKey]
  cases hstart.symm.trans hl

theorem MovedPlace.eq_iff {place place' next next' : String} (h : MovedPlace top d place place')
    (hn : MovedPlace top d next next') : place = next ↔ place' = next' := by
  obtain ⟨key, key', fragment, ⟨rfl, rfl⟩ | ⟨rest, hrest, rfl, rfl⟩, rfl, rfl⟩ := h
  · obtain ⟨_, _, fragment', ⟨rfl, rfl⟩ | ⟨rest', hrest', rfl, rfl⟩, rfl, rfl⟩ := hn
    · rfl
    · exact iff_of_false (placeKey_empty_ne hrest') (placeKey_empty_ne (List.cons_ne_nil _ _))
  · obtain ⟨_, _, fragment', ⟨rfl, rfl⟩ | ⟨rest', hrest', rfl, rfl⟩, rfl, rfl⟩ := hn
    · exact iff_of_false (placeKey_empty_ne hrest).symm
        (placeKey_empty_ne (List.cons_ne_nil _ _)).symm
    · rw [← String.toList_inj, ← String.toList_inj]
      simp only [toList_placeKey, List.flatMap_append, List.flatMap_cons, List.append_assoc,
        List.append_cancel_left_eq]

theorem mem_iff_of_moved {entered entered' : List String} {place place' : String}
    (h : List.Forall₂ (MovedPlace top d) entered entered') (hp : MovedPlace top d place place') :
    place ∈ entered ↔ place' ∈ entered' := by
  induction h with
  | nil => simp
  | cons hnext _ ih => rw [List.mem_cons, List.mem_cons, hp.eq_iff hnext, ih]

theorem external_moved (h : t.MovesTo d rest dir dir') (hd : IsName d)
    (hin : isUrl location = false → Path.IsInward location) :
    MovedOutcome (MovedDocument t d) (external t location dir)
      (external (t.movedInto d) location dir') := by
  cases hu : isUrl location with
  | true =>
    rw [external, external, if_pos hu, if_pos hu]
    exact .both trivial
  | false =>
    obtain ⟨ha, hup⟩ := hin hu
    rw [external_eq hu, external_eq hu]
    apply (h.load hd ha (Path.staysInside_of_not_mem hup _)).bind
    rintro root _ ⟨rfl, next, harrives⟩
    obtain ⟨up, up', hup, hup', hmoves⟩ := harrives.parents
    apply Tied.ok
    constructor
    · rfl
    · right
      refine ⟨next, harrives.ne_nil, ?_, ?_⟩
      · simp [FileTree.canonical, harrives.resolve]
      · simp [FileTree.canonical, harrives.resolve']
    · simp only [hup, hup', Option.getD_some]
      exact ⟨_, hmoves⟩

theorem locate_moved (h : MovedDocument t d doc doc') (hd : IsName d) {reference : String}
    (hin : IsInward reference) :
    MovedOutcome (fun target target' => target.value = target'.value ∧
        MovedDocument t d target.document target'.document ∧
        MovedPlace t.current d target.place target'.place)
      (locate t doc reference) (locate (t.movedInto d) doc' reference) := by
  have hdest : MovedOutcome (MovedDocument t d) (destination t doc reference)
      (destination (t.movedInto d) doc' reference) := by
    unfold destination
    split
    · exact .ok h
    · obtain ⟨rest, hmoves⟩ := h.directory
      exact external_moved hmoves hd hin
  rw [locate_eq, locate_eq]
  apply hdest.bind
  rintro document document' hdoc
  rw [hdoc.root]
  apply (Tied.refl _ (fun _ => rfl) fun _ => trivial).bind_eq
  rintro value
  exact .ok ⟨rfl, hdoc, _, _, _, hdoc.key, rfl, rfl⟩

/-- What a call comes to, and what the same call comes to where the files have been moved. -/
theorem Call.Outcome.moved {c c' : Call} {x x' : Except SourceError Json} (hd : IsName d)
    (h : Outcome t c x) (h' : Outcome (t.movedInto d) c' x') (hvalue : c.value = c'.value)
    (hdoc : MovedDocument t d c.document c'.document)
    (hentered : List.Forall₂ (MovedPlace t.current d) c.entered c'.entered)
    (hin : StaysInside t c.document c.value) : MovedOutcome Eq x x' := by
  induction h generalizing c' x' with
  | @intro c follow missing circular entering ih =>
    obtain ⟨follow', missing', circular', entering'⟩ := h'
    rw [← hvalue] at missing' circular' entering' ⊢
    refine inlineWith_tied c.value fun reference hr => ?_
    have hl := locate_moved hdoc hd (hin.own reference hr)
    generalize hlocate : locate t c.document reference = y at hl
    generalize hlocate' : locate (t.movedInto d) c'.document reference = y' at hl
    cases hl with
    | @ok target target' hl =>
      obtain ⟨hv, hdoc', hplace⟩ := hl
      have hmem := mem_iff_of_moved hentered hplace
      by_cases hp : target.place ∈ c.entered
      · rw [circular reference hr target hlocate hp,
          circular' reference hr target' hlocate' (hmem.mp hp)]
        exact .both trivial
      · have hp' := fun h => hp (hmem.mpr h)
        exact ih reference hr target hlocate hp (entering' reference hr target' hlocate' hp') hv
          hdoc' (.cons hplace hentered) (hin.at_target hr hlocate)
    | left he => exact he.elim
    | right he =>
      rw [missing' reference hr _ hlocate']
      exact .right he
    | both _ =>
      rw [missing reference hr _ hlocate, missing' reference hr _ hlocate']
      exact .both trivial

end Reference

open Reference

theorem outcome_inlineReferences (t : FileTree) (value : Json) (directory : String) :
    Call.Outcome t ⟨[], ⟨value, directory, ""⟩, value⟩ (inlineReferences t value directory) := by
  have hstart : Call.LiesIn t ⟨value, directory, ""⟩ ⟨[], ⟨value, directory, ""⟩, value⟩ :=
    ⟨.home, List.Subset.refl _⟩
  have h := hstart.outcome rfl
  rwa [Call.unentered, List.filter_eq_self.mpr fun _ _ => by simp] at h

/-- Inlining gives the same value where the files have been moved, unless a path is too long. -/
theorem inlineReferences_moved {t : FileTree} {d dir dir' : String} {rest : Place} {value : Json}
    (h : t.MovesTo d rest dir dir') (hd : IsName d) (hin : StaysInside t ⟨value, dir, ""⟩ value) :
    MovedOutcome Eq (inlineReferences t value dir)
      (inlineReferences (t.movedInto d) value dir') :=
  (outcome_inlineReferences t value dir).moved hd (outcome_inlineReferences _ value dir') rfl
    ⟨rfl, .inl ⟨rfl, rfl⟩, rest, h⟩ .nil hin

end SchemaRoutes
