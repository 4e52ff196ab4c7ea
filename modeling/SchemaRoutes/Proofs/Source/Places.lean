import SchemaRoutes.Proofs.Checks
import SchemaRoutes.Proofs.Files.Tree
import SchemaRoutes.Proofs.Source.Reference

/-! # Places that references lead to

Whatever is reached by references lies in the value at hand or in a file of the tree. The name of a
place tells the document and the fragment, but not how the directory of the document is spelt. The
spelling makes a difference for what is reached from there only where a path gets too long.
-/

namespace SchemaRoutes

namespace SourceError

def IsCircular (e : SourceError) : Prop := ∃ reference, e = .circularReference reference

/-- No file is found at a path that is too long to be opened. -/
def IsOverlong (e : SourceError) : Prop := ∃ path, e = .notFound path ∧ 4096 ≤ path.utf8ByteSize

theorem not_isCircular_of_isOverlong {e : SourceError} (h : e.IsOverlong) : ¬ e.IsCircular := by
  obtain ⟨path, rfl, -⟩ := h
  rintro ⟨reference, he⟩
  cases he

end SourceError

namespace Reference

variable {t : FileTree} {home doc doc' : Document} {target : Target} {reference : String}
  {value : Json}

/-- A document that references can lead to: the one at hand, or a file that is read where it
lies. -/
inductive FoundIn (t : FileTree) (home : Document) : Document → Prop where
  | home : FoundIn t home home
  | file {doc : Document} {place : Place} {text : String} :
      t.entry? place = some (.file (.text text)) → Json.read? text = some doc.root →
      doc.key = place.path → t.StandsAt doc.directory place.dropLast → FoundIn t home doc

theorem loadText_eq_ok_iff {text : String} {root : Json} :
    loadText text = .ok root ↔ Json.read? text = some root := by
  unfold loadText
  split <;> simp_all

theorem exists_file_of_load {path : String} {root : Json} (h : t.load path = .ok root) :
    ∃ place text, t.resolve? path = some place ∧
      t.entry? place = some (.file (.text text)) ∧ Json.read? text = some root := by
  unfold FileTree.load FileTree.read at h
  cases hp : t.resolve? path with
  | none =>
    rw [hp] at h
    cases h
  | some place =>
    rw [hp, Option.bind_some] at h
    match he : t.entry? place with
    | none =>
      rw [he] at h
      cases h
    | some (.file (.text text)) =>
      rw [he] at h
      exact ⟨place, text, rfl, he, loadText_eq_ok_iff.mp h⟩
    | some (.file .binary) | some .directory =>
      rw [he] at h
      cases h

section External

variable {location dir : String}

theorem external_eq (hu : isUrl location = false) : external t location dir = do
    let root ← t.load (Path.join dir location)
    return ⟨root, (Path.parent? (Path.join dir location)).getD dir,
      t.canonical (Path.join dir location)⟩ := by
  rw [external, if_neg (by simp [hu])]

theorem external_eq_error (hu : isUrl location = false) {e : SourceError}
    (h : t.load (Path.join dir location) = .error e) : external t location dir = .error e := by
  rw [external_eq hu, h]
  rfl

theorem external_eq_ok (hu : isUrl location = false) {root : Json}
    (h : t.load (Path.join dir location) = .ok root) :
    ∃ place text dir', t.resolve? (Path.join dir location) = some place ∧
      t.entry? place = some (.file (.text text)) ∧ Json.read? text = some root ∧
      t.StandsAt dir' place.dropLast ∧ external t location dir = .ok ⟨root, dir', place.path⟩ := by
  obtain ⟨place, text, hplace, hentry, hread⟩ := exists_file_of_load h
  obtain ⟨-, hs⟩ := FileTree.resolve?_eq_some_iff.mp hplace
  obtain ⟨dir', hdir, hstands⟩ :=
    FileTree.standsAt_parent hs (FileTree.isDirectory_of_file hentry)
  refine ⟨place, text, dir', hplace, hentry, hread, hstands, ?_⟩
  rw [external_eq hu, h, hdir, FileTree.canonical, hplace]
  rfl

theorem foundIn_of_external (h : external t location dir = .ok doc) : FoundIn t home doc := by
  cases hu : isUrl location with
  | true =>
    rw [external, if_pos hu] at h
    cases h
  | false =>
    cases hload : t.load (Path.join dir location) with
    | error e => cases (external_eq_error hu hload).symm.trans h
    | ok root =>
      obtain ⟨place, text, dir', -, hentry, hread, hs, he⟩ := external_eq_ok hu hload
      cases he.symm.trans h
      exact .file hentry hread rfl hs

end External

def destination (t : FileTree) (doc : Document) (reference : String) :
    Except SourceError Document :=
  if (parts reference).1.isEmpty then .ok doc else external t (parts reference).1 doc.directory

theorem locate_eq : locate t doc reference = do
    let document ← destination t doc reference
    let value ← point document.root (parts reference).2
    return ⟨document, placeKey document.key (parts reference).2, value⟩ := by
  unfold locate destination
  generalize parts reference = p
  obtain ⟨location, fragment⟩ := p
  cases he : location.isEmpty <;> simp only [he] <;> rfl

theorem locate_eq_ok (hd : FoundIn t home doc) (h : locate t doc reference = .ok target) :
    FoundIn t home target.document ∧
      target.place = placeKey target.document.key (parts reference).2 ∧
      point target.document.root (parts reference).2 = .ok target.value := by
  rw [locate_eq] at h
  obtain ⟨document, hdoc, h⟩ := bind_eq_ok_iff.mp h
  obtain ⟨value, hpoint, h⟩ := bind_eq_ok_iff.mp h
  cases h
  refine ⟨?_, rfl, hpoint⟩
  unfold destination at hdoc
  split at hdoc
  · cases hdoc
    exact hd
  · exact foundIn_of_external hdoc

theorem load_ne_circular {path reference : String} :
    t.load path ≠ .error (.circularReference reference) := by
  unfold FileTree.load
  split
  · nofun
  · nofun
  · unfold loadText
    split <;> nofun

theorem locate_ne_circular {e : SourceError} (h : locate t doc reference = .error e) :
    ¬ e.IsCircular := by
  rintro ⟨reference', rfl⟩
  rw [locate_eq, bind_eq_error_iff] at h
  rcases h with h | ⟨document, -, h⟩
  · unfold destination external at h
    split at h
    · cases h
    · split at h
      · cases h
      · rcases bind_eq_error_iff.mp h with h | ⟨root, -, h⟩
        · exact load_ne_circular h
        · cases h
  · rcases bind_eq_error_iff.mp h with h | ⟨value, -, h⟩
    · unfold point at h
      split at h <;> cases h
    · cases h

/-- Documents between which only the spelling of the directory makes a difference. -/
inductive Similar (t : FileTree) : Document → Document → Prop where
  | refl (doc : Document) : Similar t doc doc
  | spelt (root : Json) (key : String) {dir dir' : String} {place : Place} :
      t.StandsAt dir place → t.StandsAt dir' place →
      Similar t ⟨root, dir, key⟩ ⟨root, dir', key⟩

theorem Similar.root_eq (h : Similar t doc doc') : doc.root = doc'.root := by
  cases h <;> rfl

theorem placeKey_inj {key key' fragment fragment' : String} (h : '|' ∉ key.toList)
    (h' : '|' ∉ key'.toList) (hp : placeKey key fragment = placeKey key' fragment') :
    key = key' ∧ fragment = fragment' := by
  have hl : key.toList ++ '|' :: fragment.toList = key'.toList ++ '|' :: fragment'.toList := by
    simpa [placeKey] using congrArg String.toList hp
  have hs := congrArg (Text.splitChars '|') hl
  rw [Text.splitChars_append_cons h, Text.splitChars_append_cons h'] at hs
  have hk : key = key' := String.ext (List.cons.inj hs).1
  subst hk
  exact ⟨rfl, String.ext (List.cons.inj (List.append_cancel_left hl)).2⟩

theorem bar_not_mem_key (hn : t.HasPlainNames) (hh : home.key = "") (h : FoundIn t home doc) :
    '|' ∉ doc.key.toList := by
  cases h with
  | home => simp [hh]
  | file he _ hk _ =>
    rw [hk]
    exact (hn.of_file he).2

/-- A key tells the document but for the spelling of its directory. -/
theorem similar_of_key_eq (hn : t.HasPlainNames) (hh : home.key = "") (h : FoundIn t home doc)
    (h' : FoundIn t home doc') (hk : doc.key = doc'.key) : Similar t doc doc' := by
  have hfile : ∀ {place : Place} {content : Content},
      t.entry? place = some (.file content) → place.path ≠ "" := by
    rintro place content he hp
    have hd := FileTree.isDirectory_of_file he
    cases place with
    | nil => cases hd
    | cons name names => simpa [Place.toList_path] using congrArg String.toList hp
  cases h with
  | home =>
    cases h' with
    | home => exact .refl home
    | file he _ hk' _ => exact absurd (hk'.symm.trans (hk.symm.trans hh)) (hfile he)
  | @file doc place text he hr hkey hs =>
    cases h' with
    | home => exact absurd (hkey.symm.trans (hk.trans hh)) (hfile he)
    | @file doc' place' text' he' hr' hkey' hs' =>
      have hp : place = place' := Place.path_injective (hn.of_file he).1 (hn.of_file he').1
        (hkey.symm.trans (hk.trans hkey'))
      subst hp
      cases he.symm.trans he'
      obtain ⟨root, dir, key⟩ := doc
      obtain ⟨root', dir', key'⟩ := doc'
      cases hr.symm.trans hr'
      cases hk
      exact .spelt root key hs hs'

theorem load_of_resolve?_eq {path path' : String} (h : t.resolve? path = t.resolve? path') :
    (∃ root, t.load path = .ok root ∧ t.load path' = .ok root) ∨
      ∃ e e', t.load path = .error e ∧ t.load path' = .error e' := by
  have hread : t.read path = t.read path' := by rw [FileTree.read, FileTree.read, h]
  unfold FileTree.load
  rw [hread]
  split
  · exact .inr ⟨_, _, rfl, rfl⟩
  · exact .inr ⟨_, _, rfl, rfl⟩
  · next text _ =>
    cases loadText text with
    | ok root => exact .inl ⟨root, rfl, rfl⟩
    | error e => exact .inr ⟨e, e, rfl, rfl⟩

/-- Following references one after another leads to the target. -/
inductive Reaches (t : FileTree) : Document → Json → Target → Prop where
  | one {doc : Document} {value : Json} {reference : String} {target : Target} :
      reference ∈ all value → locate t doc reference = .ok target → Reaches t doc value target
  | more {doc : Document} {value : Json} {reference : String} {next target : Target} :
      reference ∈ all value → locate t doc reference = .ok next →
      Reaches t next.document next.value target → Reaches t doc value target

theorem Reaches.trans {next : Target} (h : Reaches t doc value next)
    (h' : Reaches t next.document next.value target) : Reaches t doc value target := by
  induction h with
  | one hr hl => exact .more hr hl h'
  | more hr hl _ ih => exact .more hr hl (ih h')

/-- A target that lies in a document that can be found, at a fragment that some document names. -/
structure IsFound (t : FileTree) (home : Document) (target : Target) : Prop where
  document : FoundIn t home target.document
  named : ∃ doc reference, FoundIn t home doc ∧ reference ∈ all doc.root ∧
    target.place = placeKey target.document.key (parts reference).2 ∧
      point target.document.root (parts reference).2 = .ok target.value

theorem isFound_of_locate (hd : FoundIn t home doc) (hr : reference ∈ all doc.root)
    (h : locate t doc reference = .ok target) : IsFound t home target := by
  obtain ⟨hfound, hplace, hpoint⟩ := locate_eq_ok hd h
  exact ⟨hfound, doc, reference, hd, hr, hplace, hpoint⟩

theorem IsFound.all_subset (h : IsFound t home target) :
    all target.value ⊆ all target.document.root := by
  obtain ⟨_, _, -, -, -, hpoint⟩ := h.named
  exact all_subset_of_point hpoint

theorem Reaches.isFound (h : Reaches t doc value target) (hd : FoundIn t home doc)
    (hv : all value ⊆ all doc.root) : IsFound t home target := by
  induction h with
  | one hr hl => exact isFound_of_locate hd (hv hr) hl
  | more hr hl _ ih =>
    have hnext := isFound_of_locate hd (hv hr) hl
    exact ih hnext.document hnext.all_subset

theorem FoundIn.mem_documents (h : FoundIn t home doc) (hk : home.key = "") :
    (doc.key, doc.root) ∈ ("", home.root) :: documents t := by
  cases h with
  | home => simp [hk]
  | file he hr hkey _ =>
    refine .tail _ (List.mem_filterMap.mpr ⟨_, FileTree.mem_entries_of_file he, ?_⟩)
    simp [hr, hkey]

theorem IsFound.place_mem (h : IsFound t home target) (hk : home.key = "") :
    target.place ∈ places t home.root := by
  obtain ⟨doc, reference, hd, hr, hplace, -⟩ := h.named
  rw [hplace]
  refine List.mem_flatMap.mpr ⟨_, h.document.mem_documents hk, List.mem_map.mpr ⟨_, ?_, rfl⟩⟩
  rw [List.mem_eraseDups]
  exact List.mem_flatMap.mpr ⟨_, hd.mem_documents hk, List.mem_map.mpr ⟨_, hr, rfl⟩⟩

theorem IsFound.similar {target' : Target} (h : IsFound t home target)
    (h' : IsFound t home target') (hn : t.HasPlainNames) (hk : home.key = "")
    (hp : target.place = target'.place) :
    target.value = target'.value ∧ Similar t target.document target'.document := by
  obtain ⟨_, reference, -, -, hplace, hpoint⟩ := h.named
  obtain ⟨_, reference', -, -, hplace', hpoint'⟩ := h'.named
  obtain ⟨hkey, hfragment⟩ := placeKey_inj (bar_not_mem_key hn hk h.document)
    (bar_not_mem_key hn hk h'.document) (hplace.symm.trans (hp.trans hplace'))
  have hs := similar_of_key_eq hn hk h.document h'.document hkey
  rw [hs.root_eq, hfragment] at hpoint
  exact ⟨Except.ok.inj (hpoint.symm.trans hpoint'), hs⟩

/-- However a directory is spelt, the same is read from there, unless a path gets too long. -/
theorem resolve?_join_eq {dir dir' location : String} {place : Place}
    (hs : t.StandsAt dir place) (hs' : t.StandsAt dir' place)
    (hu : Path.isUsable (Path.join dir location) = true)
    (hu' : Path.isUsable (Path.join dir' location) = true) :
    t.resolve? (Path.join dir location) = t.resolve? (Path.join dir' location) := by
  cases ha : Path.isAbsolute location with
  | true => simp [Path.join, ha]
  | false =>
    rw [FileTree.resolve?, FileTree.resolve?, FileTree.followAll, FileTree.followAll, if_pos hu,
      if_pos hu', FileTree.foldlM_follow_join hs ha, FileTree.foldlM_follow_join hs' ha]

theorem load_of_not_isUsable {path : String} (hu : Path.isUsable path = false) :
    t.load path = .error (.notFound path) := by
  have hp : t.resolve? path = none := by
    rw [FileTree.resolve?, FileTree.followAll, if_neg (by simp [hu])]
  rw [FileTree.load, FileTree.read, hp]
  rfl

theorem external_tied {dir dir' location : String} {place : Place} (hl : location ≠ "")
    (hs : t.StandsAt dir place) (hs' : t.StandsAt dir' place) :
    Tied SourceError.IsOverlong SourceError.IsOverlong (fun _ _ => True) (Similar t)
      (external t location dir) (external t location dir') := by
  have hlong : ∀ {dir}, Path.isUsable (Path.join dir location) = false →
      (SourceError.notFound (Path.join dir location)).IsOverlong := fun hu =>
    ⟨_, rfl, Path.le_utf8ByteSize (Path.join_ne_empty _ hl) hu⟩
  cases hurl : isUrl location with
  | true =>
    rw [external, external, if_pos hurl, if_pos hurl]
    exact .both trivial
  | false =>
  cases hu : Path.isUsable (Path.join dir location) with
  | false =>
    rw [external_eq_error hurl (load_of_not_isUsable hu)]
    exact .left (hlong hu)
  | true =>
  cases hu' : Path.isUsable (Path.join dir' location) with
  | false =>
    rw [external_eq_error hurl (load_of_not_isUsable hu')]
    exact .right (hlong hu')
  | true =>
  have hr := resolve?_join_eq hs hs' hu hu'
  rcases load_of_resolve?_eq hr with ⟨root, h, h'⟩ | ⟨e, e', h, h'⟩
  · obtain ⟨place₁, -, dir₁, hp, -, -, hs₁, he⟩ := external_eq_ok hurl h
    obtain ⟨place₂, -, dir₂, hp', -, -, hs₂, he'⟩ := external_eq_ok hurl h'
    cases hp.symm.trans (hr.trans hp')
    rw [he, he']
    exact .ok (.spelt root _ hs₁ hs₂)
  · rw [external_eq_error hurl h, external_eq_error hurl h']
    exact .both trivial

/-- From similar documents a reference leads to the same value, or it fails in both, or a path is
too long. -/
theorem locate_tied (h : Similar t doc doc') (reference : String) :
    Tied SourceError.IsOverlong SourceError.IsOverlong (fun _ _ => True)
      (fun target target' => target.value = target'.value ∧
        Similar t target.document target'.document)
      (locate t doc reference) (locate t doc' reference) := by
  have hdest : Tied SourceError.IsOverlong SourceError.IsOverlong (fun _ _ => True) (Similar t)
      (destination t doc reference) (destination t doc' reference) := by
    cases h with
    | refl => exact .refl _ .refl fun _ => trivial
    | spelt root key hs hs' =>
      unfold destination
      split
      · exact .ok (.spelt root key hs hs')
      · next hl => exact external_tied (by simpa using hl) hs hs'
  rw [locate_eq, locate_eq]
  refine hdest.bind fun document document' hd => ?_
  rw [hd.root_eq]
  exact (Tied.refl _ (fun _ => rfl) fun _ => trivial).bind_eq fun _ => .ok ⟨rfl, hd⟩

end Reference

end SchemaRoutes
