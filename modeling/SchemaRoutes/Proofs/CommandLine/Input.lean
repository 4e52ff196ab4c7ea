import SchemaRoutes.Proofs.CommandLine.Arguments
import SchemaRoutes.Proofs.CommandLine.Run
import SchemaRoutes.Proofs.Source.Places

/-! # A schema by itself or in a manifest

A manifest in the current directory that lists one schema stands for that schema: its directory is
the empty path, so the path of the schema is taken as it is, and both ways load the same root. Only
the message of a failure can tell them apart.
-/

namespace SchemaRoutes.CommandLine

namespace Work

variable {α β : Type} {x y : Work α} {w : World}

/-- The one work does what the other does, but for the message with which both may stop. -/
inductive Alike (x y : Work α) (w : World) : Prop where
  | same : x.run w = y.run w → Alike x y w
  | stopped (f f' : Failure) : f.exitCode = f'.exitCode →
      x.run w = (.error f.exitCode, w.withMessage f) →
      y.run w = (.error f'.exitCode, w.withMessage f') → Alike x y w

theorem Alike.bind (h : Alike x y w) (k : α → Work β) : Alike (x >>= k) (y >>= k) w := by
  cases h with
  | same h =>
    refine .same ?_
    cases hx : x.run w with
    | mk r w' =>
      cases r with
      | ok a => rw [run_bind_of_ok hx, run_bind_of_ok (h ▸ hx)]
      | error code => rw [run_bind_of_error hx, run_bind_of_error (h ▸ hx)]
  | stopped f f' hcode hx hy =>
    exact .stopped f f' hcode (run_bind_of_error hx) (run_bind_of_error hy)

end Work

/-- A document that lists one schema, and names neither a dispatcher nor a host document. -/
inductive IsListing (path baseUrl : String) : Json → Prop where
  | intro {ms entry : Members} : ms.lookup "schemas" = some (.arr [.obj entry]) →
      ms.lookup "controller" = none → ms.lookup "document" = none →
      entry.lookup "path" = some (.str path) → entry.lookup "baseUrl" = some (.str baseUrl) →
      IsListing path baseUrl (.obj ms)

section Inputs

variable {t : FileTree} {path baseUrl config text : String} {j : Json}

theorem IsListing.ofJson? (h : IsListing path baseUrl j) :
    Manifest.ofJson? j = some ⟨none, none, [⟨path, some baseUrl⟩]⟩ := by
  obtain ⟨hschemas, hdispatcher, hdocument, hpath, hbase⟩ := h
  simp [Manifest.ofJson?, Json.fields?, hschemas, hdispatcher, hdocument, optionalText?,
    Manifest.entries?, ManifestEntry.ofJson?, hpath, hbase]

theorem ne_empty_of_read (h : t.read config = .text text) : config ≠ "" := by
  rintro rfl
  cases h

/-- The paths in a manifest of the current directory are taken as they are. -/
theorem load_listing (hslash : '/' ∉ config.toList) (ht : t.read config = .text text)
    (hj : Json.read? text = some j) (h : IsListing path baseUrl j) :
    Manifest.load t config = .ok ⟨none, none, [⟨path, some baseUrl⟩]⟩ := by
  have hload : t.load config = .ok j := by
    rw [FileTree.load, ht]
    exact Reference.loadText_eq_ok_iff.mpr hj
  have hhere := Path.directory_of_not_mem (ne_empty_of_read ht) hslash
  have hpath := Path.join_empty path
  simp [Manifest.load, hload, h.ofJson?, hhere, hpath, Manifest.relativeTo, bind, Except.bind,
    pure, Except.pure]

theorem roots_listing_of_error {e : SourceError} (hl : t.load path = .error e) :
    Manifest.roots t ⟨none, none, [⟨path, some baseUrl⟩]⟩ = .error e := by
  refine (bind_pure (Roots.addFile t [] path baseUrl)).trans ?_
  rw [Roots.addFile, hl]
  rfl

theorem roots_listing_of_ok {schema : Json} (hl : t.load path = .ok schema) :
    Manifest.roots t ⟨none, none, [⟨path, some baseUrl⟩]⟩ =
      (inlineReferences t schema (Path.directory path)).map fun whole => [⟨whole, baseUrl⟩] := by
  refine (bind_pure (Roots.addFile t [] path baseUrl)).trans ?_
  rw [Roots.addFile, hl]
  change (inlineReferences t schema (Path.directory path) >>=
    fun whole => pure ([⟨whole, baseUrl⟩] : Roots)) = _
  cases inlineReferences t schema (Path.directory path) <;> rfl

namespace Work

variable {w : World}

theorem run_loadWhole_of_error (hp : isUrl path = false) {e : SourceError}
    (hl : w.tree.load path = .error e) :
    (loadWhole path).run w = (.error (Failure.load e).exitCode, w.withMessage (.load e)) := by
  have hsource : w.tree.loadSource path = .error e := (if_neg (ne_true_of_eq_false hp)).trans hl
  rw [loadWhole, run_bind_of_ok (run_files w), hsource,
    run_bind_of_error (run_ofExcept_error .load e w)]

theorem run_loadWhole_of_ok (hp : isUrl path = false) {schema : Json}
    (hl : w.tree.load path = .ok schema) :
    (loadWhole path).run w =
      (ofExcept (.reference path)
        (inlineReferences w.tree schema (Path.directory path))).run w := by
  have hsource : w.tree.loadSource path = .ok schema := (if_neg (ne_true_of_eq_false hp)).trans hl
  rw [loadWhole, run_bind_of_ok (run_files w), hsource,
    run_bind_of_ok (run_ofExcept_ok .load schema w), run_bind_of_ok (run_files w), hp]
  rfl

theorem run_readInput_manifest {m : Manifest} (hm : Manifest.load w.tree config = .ok m) :
    (readInput (.manifest config)).run w =
      (ofExcept .load (m.roots w.tree) >>= fun roots =>
        pure (roots, m.dispatcher, m.document)).run w := by
  rw [readInput, run_bind_of_ok (run_files w), hm, run_bind_of_ok (run_ofExcept_ok .load m w),
    run_bind_of_ok (run_files w)]

theorem alike_readInput (hp : isUrl path = false)
    (hload : Manifest.load w.tree config = .ok ⟨none, none, [⟨path, some baseUrl⟩]⟩) :
    Alike (readInput (.schema path baseUrl)) (readInput (.manifest config)) w := by
  have hm := run_readInput_manifest hload
  cases hl : w.tree.load path with
  | error e =>
    have hs := run_loadWhole_of_error hp hl
    rw [roots_listing_of_error hl] at hm
    exact .same ((run_bind_of_error hs).trans hm.symm)
  | ok schema =>
    have hs := run_loadWhole_of_ok hp hl
    rw [roots_listing_of_ok hl] at hm
    cases hi : inlineReferences w.tree schema (Path.directory path) with
    | error e =>
      rw [hi] at hs hm
      -- A bad reference is the one failure that is reported differently.
      exact .stopped (.reference path e) (.load e) rfl (run_bind_of_error hs) hm
    | ok whole =>
      rw [hi] at hs hm
      exact .same ((run_bind_of_ok hs).trans hm.symm)

end Work

end Inputs

theorem Work.Alike.outcome {x y : Work Unit} {w : World} (h : Alike x y w) :
    (Outcome.ofRun (x.run w)).exitCode = (Outcome.ofRun (y.run w)).exitCode ∧
      (Outcome.ofRun (x.run w)).stdout = (Outcome.ofRun (y.run w)).stdout := by
  cases h with
  | same h => exact h ▸ ⟨rfl, rfl⟩
  | stopped f f' hcode hx hy =>
    rw [hx, hy]
    exact ⟨hcode, rfl⟩

theorem run_alike (choice : Choice) {t : FileTree} {input input' : Input}
    (h : Work.Alike (Work.readInput input) (Work.readInput input') ⟨t, "", ""⟩) :
    ((choice.command input).run t).exitCode = ((choice.command input').run t).exitCode ∧
      ((choice.command input).run t).stdout = ((choice.command input').run t).stdout := by
  have hdocument : Work.Alike (choice.command input).document (choice.command input').document
      ⟨t, "", ""⟩ := h.bind _
  have hwork : Work.Alike (choice.command input).work (choice.command input').work
      ⟨t, "", ""⟩ := hdocument.bind _
  exact hwork.outcome

/-- A run with a schema and its base URL, and a run with a manifest of the current directory that
lists just them, give the same exit code and print the same document, whatever else is chosen: so
it is if the words make no sense, if a file is missing or is no document, if a reference leads
nowhere or back into itself, and if nothing is compiled. -/
theorem run_of_listing {t : FileTree} {path baseUrl config text : String} {j : Json}
    {words words' others : List String} (hp : isUrl path = false)
    (ho : looksLikeOption path = false) (hb : Sets .baseUrl baseUrl words)
    (hc : Sets .manifest config words') (hslash : '/' ∉ config.toList)
    (ht : t.read config = .text text) (hj : Json.read? text = some j)
    (hlisting : IsListing path baseUrl j) (hothers : Choices others) :
    (run t ("generate" :: path :: (words ++ others))).exitCode =
        (run t ("generate" :: (words' ++ others))).exitCode ∧
      (run t ("generate" :: path :: (words ++ others))).stdout =
        (run t ("generate" :: (words' ++ others))).stdout := by
  obtain ⟨r, hr⟩ := hothers.exists_reads .none
  have hs := parse_schema ho hb hr
  have hm := parse_manifest (ne_empty_of_read ht) hc hr
  cases r with
  | error halt =>
    rw [run_of_halt hs, run_of_halt hm]
    exact ⟨rfl, rfl⟩
  | ok choice =>
    have hload := load_listing hslash ht hj hlisting
    rw [run_of_parse hs, run_of_parse hm]
    exact run_alike choice (Work.alike_readInput hp hload)

def listing : Json :=
  .obj [("schemas", .arr [.obj [("path", .str "note.json"), ("baseUrl", .str "/api")]])]

def listedNote : FileTree :=
  { hostedNote with
    entries := hostedNote.entries ++ [(["build.json"], .file (.text listing.compact))] }

theorem run_of_listed_note :
    let others := ["--doc", "host.json", "--pretty"]
    let words := "generate" :: "note.json" :: (["--base-url", "/api"] ++ others)
    let words' := "generate" :: (["--config=build.json"] ++ others)
    (run listedNote words).exitCode = 0 ∧ (run listedNote words').exitCode = 0 ∧
      (run listedNote words).stdout = (run listedNote words').stdout := by
  intro others words words'
  have hplace : listedNote.resolve? "build.json" = some ["build.json"] := by decide +kernel
  have hread : listedNote.read "build.json" = .text listing.compact := by
    rw [FileTree.read, hplace]
    rfl
  have hj : Json.read? listing.compact = some listing := by decide +kernel
  have hlisting : IsListing "note.json" "/api" listing := .intro rfl rfl rfl rfl rfl
  have hb : Sets .baseUrl "/api" ["--base-url", "/api"] := .apart (by decide)
  have hc : Sets .manifest "build.json" ["--config=build.json"] := .joined
  have hdocument : Valued.document.IsChoice := .inr rfl
  have hothers : Choices others :=
    .apart "host.json" hdocument (.pretty .nil)
  have hurl : isUrl "note.json" = false := by decide +kernel
  obtain ⟨hcode, hout⟩ :=
    run_of_listing hurl (by decide) hb hc (by decide) hread hj hlisting hothers
  have hzero : (run listedNote words).exitCode = 0 := by decide +kernel
  exact ⟨hzero, hcode.symm.trans hzero, hout⟩

end SchemaRoutes.CommandLine
