import SchemaRoutes.Host.Manifest
import SchemaRoutes.Proofs.Source.Moved

/-! # Manifests that are moved with their files

The paths of a manifest start from its own directory, and references start from the file they stand
in. So if none of them leads out of its directory, all that a manifest lists is loaded as before
once everything has been moved. Only a path that was short enough to be opened can get too long.
-/

namespace SchemaRoutes

open FileTree (MovesTo)
open SchemaRoutes.Path (IsName)

variable {t : FileTree} {d dir dir' path : String} {rest : Place}

theorem Roots.addFile_moved (h : t.MovesTo d rest dir dir') (hd : IsName d) (roots : Roots)
    (baseUrl : String) {location : String} (hin : Path.IsInward location)
    (hrefs : ∀ value, t.load (Path.join dir location) = .ok value →
      Reference.StaysInside t ⟨value, Path.directory (Path.join dir location), ""⟩ value) :
    MovedOutcome Eq (addFile t roots (Path.join dir location) baseUrl)
      (addFile (t.movedInto d) roots (Path.join dir' location) baseUrl) := by
  have hload := h.load hd hin.relative (Path.staysInside_of_not_mem hin.noUp _)
  unfold addFile
  apply hload.eq_ok.bind
  rintro value _ ⟨⟨rfl, next, harrives⟩, hvalue, -⟩
  obtain ⟨up, up', hup, hup', hmoves⟩ := harrives.parents
  have hin' := hrefs value hvalue
  rw [Path.directory, hup] at hin' ⊢
  rw [Path.directory, hup']
  exact (inlineReferences_moved hmoves hd hin').bind_eq fun _ => .ok rfl

namespace Manifest

/-- Where the manifest lies, and what it and the schemas refer to, no path is absolute or leads out
of the current directory. -/
structure IsPortable (t : FileTree) (path : String) : Prop where
  relative : Path.isAbsolute path = false
  inside : Path.staysInside 0 (Path.parts path) = true
  schemas : ∀ j manifest, t.load path = .ok j → ofJson? j = some manifest →
    ∀ e ∈ manifest.schemas, Path.IsInward e.path
  references : ∀ manifest, load t path = .ok manifest → ∀ e ∈ manifest.schemas, ∀ value,
    t.load e.path = .ok value →
      Reference.StaysInside t ⟨value, Path.directory e.path, ""⟩ value

theorem foldlM_addFile_moved (h : t.MovesTo d rest dir dir') (hd : IsName d)
    {entries : List ManifestEntry} (hin : ∀ e ∈ entries, Path.IsInward e.path)
    (hrefs : ∀ e ∈ entries, ∀ value, t.load (Path.join dir e.path) = .ok value →
      Reference.StaysInside t ⟨value, Path.directory (Path.join dir e.path), ""⟩ value)
    (roots : Roots) :
    MovedOutcome Eq
      (entries.foldlM (fun roots e =>
        Roots.addFile t roots (Path.join dir e.path) (e.baseUrl.getD "")) roots)
      (entries.foldlM (fun roots e =>
        Roots.addFile (t.movedInto d) roots (Path.join dir' e.path) (e.baseUrl.getD ""))
        roots) := by
  induction entries generalizing roots with
  | nil => exact .ok rfl
  | cons e es ih =>
    rw [List.forall_mem_cons] at hin hrefs
    rw [List.foldlM_cons, List.foldlM_cons]
    exact (Roots.addFile_moved h hd roots _ hin.1 hrefs.1).bind_eq (ih hin.2 hrefs.2)

theorem roots_relativeTo (t : FileTree) (dir : String) (manifest : Manifest) :
    roots t (manifest.relativeTo dir) = manifest.schemas.foldlM (fun roots e =>
      Roots.addFile t roots (Path.join dir e.path) (e.baseUrl.getD "")) [] := by
  rw [roots, relativeTo, List.foldlM_map]

/-- The manifest is read as before; only the directory that its paths start from has moved. -/
theorem load_moved (hd : IsName d) (h : IsPortable t path) :
    MovedOutcome (fun manifest manifest' => ∃ raw next up up',
        manifest = relativeTo up raw ∧ manifest' = relativeTo up' raw ∧ t.MovesTo d next up up' ∧
          ∀ e ∈ raw.schemas, Path.IsInward e.path)
      (load t path) (load (t.movedInto d) (Path.join d path)) := by
  have hmoves := (t.movesTo_empty hd).load hd h.relative h.inside
  rw [Path.join_empty] at hmoves
  apply hmoves.eq_ok.bind
  rintro j _ ⟨⟨rfl, next, harrives⟩, hj, -⟩
  obtain ⟨up, up', hup, hup', hmoves⟩ := harrives.parents
  cases hraw : ofJson? j with
  | none => exact .both trivial
  | some raw =>
    simp only [Path.directory, hup, hup', Option.getD_some]
    exact .ok ⟨raw, _, up, up', rfl, rfl, hmoves, h.schemas j raw hj hraw⟩

theorem loadRoots_moved (hd : IsName d) (h : IsPortable t path) :
    MovedOutcome Eq (load t path >>= roots t)
      (load (t.movedInto d) (Path.join d path) >>= roots (t.movedInto d)) := by
  apply (load_moved hd h).eq_ok.bind
  rintro _ _ ⟨⟨raw, next, up, up', rfl, rfl, hmoves, hin⟩, hm, -⟩
  rw [roots_relativeTo, roots_relativeTo]
  apply foldlM_addFile_moved hmoves hd hin
  rintro e he value hvalue
  have hmem : { e with path := Path.join up e.path } ∈ (raw.relativeTo up).schemas :=
    List.mem_map_of_mem he
  exact h.references _ hm _ hmem value hvalue

/-- A manifest whose files are moved into a new directory together with it lists the same schemas as
before whenever they can be loaded there. They can be if they could before, but for a path that has
got too long. -/
theorem roots_moved (hd : IsName d) (h : IsPortable t path) :
    let run := load t path >>= roots t
    let run' := load (t.movedInto d) (Path.join d path) >>= roots (t.movedInto d)
    (∀ roots, run' = .ok roots → run = .ok roots) ∧
    (∀ roots, run = .ok roots → run' = .ok roots ∨ ∃ e, run' = .error e ∧ e.IsOverlong) := by
  intro run run'
  have ht : MovedOutcome Eq run run' := loadRoots_moved hd h
  generalize run = x at ht ⊢
  generalize run' = x' at ht ⊢
  cases ht with
  | ok he =>
    subst he
    exact ⟨fun _ h => h, fun _ h => .inl h⟩
  | left he => exact he.elim
  | right he => exact ⟨nofun, fun _ _ => .inr ⟨_, rfl, he⟩⟩
  | both _ => exact ⟨nofun, nofun⟩

theorem load_eq_ok {j : Json} {manifest : Manifest} (hj : t.load path = .ok j)
    (hm : ofJson? j = some manifest) :
    load t path = .ok (manifest.relativeTo (Path.directory path)) := by
  simp only [load, hj, bind, Except.bind, hm]
  rfl

theorem load_eq_error {e : SourceError} (h : t.load path = .error e) :
    load t path = .error e := by
  rw [load, h]
  rfl

def site : FileTree where
  entries := [
    (["site", "build.json"], .file (.text "\x7b\"schemas\":[\x7b\"path\":\"notes.json\"\x7d]\x7d")),
    (["site", "notes.json"], .file (.text "\x7b\"$ref\":\"defs/text.json#/short\"\x7d")),
    (["site", "defs", "text.json"], .file (.text "\x7b\"short\":\x7b\"type\":\"string\"\x7d\x7d"))]
  current := []

theorem isPortable_site : IsPortable site "./site/build.json" where
  relative := rfl
  inside := by decide +kernel
  schemas j manifest hj hm e he := by
    have hload : site.load "./site/build.json" =
        .ok (.obj [("schemas", .arr [.obj [("path", .str "notes.json")]])]) := by decide +kernel
    cases hload.symm.trans hj
    cases hm
    obtain rfl := List.mem_singleton.mp he
    exact ⟨by decide, by decide⟩
  references manifest hm e he value hvalue := by
    have hload : load site "./site/build.json" =
        .ok ⟨none, none, [⟨"./site/notes.json", none⟩]⟩ := by decide +kernel
    cases hload.symm.trans hm
    obtain rfl := List.mem_singleton.mp he
    have hnotes : site.load "./site/notes.json" =
        .ok (.obj [("$ref", .str "defs/text.json#/short")]) := by decide +kernel
    cases hnotes.symm.trans hvalue
    have hall : Reference.all (.obj [("$ref", .str "defs/text.json#/short")]) =
        ["defs/text.json#/short"] := by decide +kernel
    apply Reference.StaysInside.of_locate
    · rintro reference hr
      rw [hall, List.mem_singleton] at hr
      subst hr
      exact fun _ => ⟨by decide +kernel, by decide +kernel⟩
    · rintro reference hr target hl
      rw [hall, List.mem_singleton] at hr
      subst hr
      have htext : (Reference.locate site ⟨.obj [("$ref", .str "defs/text.json#/short")], "./site",
          ""⟩ "defs/text.json#/short").map Reference.Target.value =
          .ok (.obj [("type", .str "string")]) := by decide +kernel
      obtain ⟨_, hl', hv⟩ := map_eq_ok_iff.mp htext
      cases hl'.symm.trans hl
      apply Reference.StaysInside.of_all_eq_nil
      rw [hv]
      decide +kernel

theorem roots_site_moved : IsName "d" ∧ IsPortable site "./site/build.json" ∧
    (load (site.movedInto "d") (Path.join "d" "./site/build.json") >>=
      roots (site.movedInto "d")) = .ok [⟨.obj [("type", .str "string")], ""⟩] ∧
    (load site "./site/build.json" >>= roots site) =
      .ok [⟨.obj [("type", .str "string")], ""⟩] := by
  have hd : IsName "d" := by decide
  have hrun : (load (site.movedInto "d") (Path.join "d" "./site/build.json") >>=
      roots (site.movedInto "d")) = .ok [⟨.obj [("type", .str "string")], ""⟩] := by
    decide +kernel
  exact ⟨hd, isPortable_site, hrun, (roots_moved hd isPortable_site).1 _ hrun⟩

def flat : FileTree where
  entries := [
    (["build.json"], .file (.text "\x7b\"schemas\":[\x7b\"path\":\"notes.json\"\x7d]\x7d")),
    (["notes.json"], .file (.text "\x7b\"leaf\":true\x7d"))]
  current := []

def dotted (n : ℕ) : String := Path.joinParts (List.replicate n "." ++ ["build.json"])

theorem parts_dotted (n : ℕ) : Path.parts (dotted n) = List.replicate n "." ++ ["build.json"] := by
  apply Path.parts_joinParts (by simp)
  rintro p hp
  rcases List.mem_append.mp hp with hp | hp
  · rw [List.eq_of_mem_replicate hp]
    decide
  · rw [List.mem_singleton.mp hp]
    decide

theorem utf8ByteSize_dotted (n : ℕ) : (dotted n).utf8ByteSize = 2 * n + 10 := by
  induction n with
  | zero => decide +kernel
  | succ n ih =>
    have hpath : dotted (n + 1) = "." ++ "/" ++ dotted n := Path.joinParts_cons (by simp)
    rw [hpath, String.utf8ByteSize_append, ih]
    have hdot : ("." ++ "/" : String).utf8ByteSize = 2 := by decide +kernel
    omega

theorem isAbsolute_dotted (n : ℕ) : Path.isAbsolute (dotted n) = false := by
  cases n with
  | zero => decide +kernel
  | succ n => exact Path.isAbsolute_eq_false (parts_dotted (n + 1)) (by decide)

theorem standsAt_dotted (n : ℕ) : flat.StandsAt (dotted n) ["build.json"] := by
  rw [FileTree.StandsAt, parts_dotted, FileTree.start, isAbsolute_dotted,
    FileTree.foldlM_follow_concat]
  refine ⟨[], FileTree.foldlM_follow_idle (by decide) ?_, by decide +kernel⟩
  rintro p hp
  rw [List.eq_of_mem_replicate hp]
  rfl

theorem directory_dotted (n : ℕ) : Path.directory (dotted (n + 1)) = "." := by
  have hidle : Path.dropIdle (List.replicate n ".") = [] := by simp [Path.dropIdle, Path.isStep]
  rw [Path.directory, Path.parent?_of_dot (parts_dotted (n + 1)) rfl, hidle]
  rfl

theorem isUsable_dotted {n : ℕ} (h : n ≤ 2042) : Path.isUsable (dotted n) = true := by
  have hs := utf8ByteSize_dotted n
  have hne : dotted n ≠ "" := by
    intro he
    rw [he] at hs
    cases hs
  rw [Path.isUsable, hs, Bool.and_eq_true, decide_eq_true_eq]
  exact ⟨by simpa [String.isEmpty_iff] using hne, by omega⟩

theorem load_flat {n : ℕ} (h : n ≤ 2042) : flat.load (dotted n) =
    .ok (.obj [("schemas", .arr [.obj [("path", .str "notes.json")]])]) := by
  have hr : flat.resolve? (dotted n) = some ["build.json"] :=
    FileTree.resolve?_eq_some_iff.mpr ⟨isUsable_dotted h, standsAt_dotted n⟩
  have hentry : flat.entry? ["build.json"] =
      some (.file (.text "\x7b\"schemas\":[\x7b\"path\":\"notes.json\"\x7d]\x7d")) := by
    decide +kernel
  rw [FileTree.load, FileTree.read, hr, Option.bind_some, hentry]
  exact Reference.loadText_eq_ok_iff.mpr (by decide +kernel)

theorem load_dotted {n : ℕ} (h : n < 2042) :
    load flat (dotted (n + 1)) = .ok ⟨none, none, [⟨"./notes.json", none⟩]⟩ := by
  have hraw : ofJson? (.obj [("schemas", .arr [.obj [("path", .str "notes.json")]])]) =
      some ⟨none, none, [⟨"notes.json", none⟩]⟩ := by decide +kernel
  have hjoin : Path.join "." "notes.json" = "./notes.json" := by decide +kernel
  rw [load_eq_ok (load_flat h) hraw, directory_dotted, relativeTo]
  simp only [Option.map_none, List.map_cons, List.map_nil, hjoin]

theorem isPortable_dotted {n : ℕ} (h : n < 2042) : IsPortable flat (dotted (n + 1)) where
  relative := isAbsolute_dotted (n + 1)
  inside := by
    apply Path.staysInside_of_not_mem
    rw [parts_dotted]
    simp
  schemas j manifest hj hm e he := by
    cases (load_flat h).symm.trans hj
    cases hm
    obtain rfl := List.mem_singleton.mp he
    exact ⟨by decide, by decide⟩
  references manifest hm e he value hvalue := by
    cases (load_dotted h).symm.trans hm
    obtain rfl := List.mem_singleton.mp he
    have hnotes : flat.load "./notes.json" = .ok (.obj [("leaf", .bool true)]) := by decide +kernel
    cases hnotes.symm.trans hvalue
    exact .of_all_eq_nil rfl

/-- The path of the manifest has 4094 bytes, and where it is moved two more. -/
theorem roots_dotted_moved : IsName "d" ∧ IsPortable flat (dotted 2042) ∧
    (load flat (dotted 2042) >>= roots flat) = .ok [⟨.obj [("leaf", .bool true)], ""⟩] ∧
    (load (flat.movedInto "d") (Path.join "d" (dotted 2042)) >>= roots (flat.movedInto "d")) =
      .error (.notFound (Path.join "d" (dotted 2042))) := by
  refine ⟨by decide, isPortable_dotted (n := 2041) (by decide), ?_, ?_⟩
  · rw [load_dotted (n := 2041) (by decide)]
    change roots flat _ = _
    decide +kernel
  · have hjoin : Path.join "d" (dotted 2042) = "d" ++ "/" ++ dotted 2042 :=
      Path.join_of_last (by decide +kernel) (isAbsolute_dotted 2042)
    have hsize : ("d" ++ "/" ++ dotted 2042 : String).utf8ByteSize = 4096 := by
      rw [String.utf8ByteSize_append, utf8ByteSize_dotted]
      rfl
    have hu : Path.isUsable (Path.join "d" (dotted 2042)) = false := by
      rw [hjoin, Path.isUsable, hsize]
      exact Bool.and_false _
    rw [load_eq_error (Reference.load_of_not_isUsable hu)]
    rfl

end Manifest

end SchemaRoutes
