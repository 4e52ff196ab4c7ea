import SchemaRoutes.CommandLine.Run
import SchemaRoutes.Proofs.Checks
import SchemaRoutes.Proofs.Files.Write
import SchemaRoutes.Proofs.Json.Reader

/-! # What a run leaves behind

All that a command does before it emits its document is quiet: it looks at the files, and stops
with a message or goes on with the world as it was. So a run that fails leaves the files and the
standard output alone, and a run that succeeds does one thing only: it prints its document or
writes it to one file, which may well be a file that it has read.
-/

namespace SchemaRoutes.CommandLine

theorem Failure.exitCode_ne_zero (f : Failure) : f.exitCode ≠ 0 := by
  cases f with
  | load e | reference _ e => cases e <;> exact Nat.succ_ne_zero _
  | compile | write => exact Nat.succ_ne_zero _

def World.withMessage (w : World) (f : Failure) : World :=
  { w with stderr := w.stderr ++ (f.message ++ "\n") }

namespace Work

variable {α β ε : Type} {x : Work α} {k : α → Work β} {w w' : World}

/-- The work changes nothing, but for a message if it stops. -/
def IsQuiet (x : Work α) : Prop :=
  ∀ w, (∃ a, x.run w = (.ok a, w)) ∨
    ∃ f : Failure, x.run w = (.error f.exitCode, w.withMessage f)

theorem isQuiet_pure (a : α) : IsQuiet (pure a) := fun _ => .inl ⟨a, rfl⟩

theorem isQuiet_files : files.IsQuiet := fun w => .inl ⟨w.tree, rfl⟩

theorem isQuiet_stop (f : Failure) : IsQuiet (stop f : Work α) := fun _ => .inr ⟨f, rfl⟩

theorem isQuiet_ofExcept (failure : ε → Failure) (r : Except ε α) :
    (ofExcept failure r).IsQuiet := by
  cases r with
  | ok a => exact isQuiet_pure a
  | error e => exact isQuiet_stop (failure e)

theorem IsQuiet.bind (h : x.IsQuiet) (h' : ∀ a, (k a).IsQuiet) : (x >>= k).IsQuiet := by
  intro w
  rcases h w with ⟨a, ha⟩ | ⟨f, hf⟩
  · rw [run_bind_of_ok ha]
    exact h' a w
  · exact .inr ⟨f, run_bind_of_error hf⟩

theorem isQuiet_forM {γ : Type} {xs : List γ} {f : γ → Work Unit} (h : ∀ x ∈ xs, (f x).IsQuiet) :
    (xs.forM f).IsQuiet := by
  induction xs with
  | nil => exact isQuiet_pure ()
  | cons x xs ih =>
    obtain ⟨hx, hxs⟩ := List.forall_mem_cons.mp h
    exact hx.bind fun _ => ih hxs

theorem isQuiet_loadWhole (source : String) : (loadWhole source).IsQuiet :=
  isQuiet_files.bind fun _ => (isQuiet_ofExcept _ _).bind fun _ =>
    isQuiet_files.bind fun _ => isQuiet_ofExcept _ _

theorem isQuiet_readInput (input : Input) : (readInput input).IsQuiet := by
  cases input with
  | schema source baseUrl => exact (isQuiet_loadWhole source).bind fun _ => isQuiet_pure _
  | manifest path =>
    exact isQuiet_files.bind fun _ => (isQuiet_ofExcept _ _).bind fun _ =>
      isQuiet_files.bind fun _ => (isQuiet_ofExcept _ _).bind fun _ => isQuiet_pure _

theorem isQuiet_checkRoots (roots : Roots) : (checkRoots roots).IsQuiet := by
  refine isQuiet_forM fun root _ => ?_
  split
  · exact isQuiet_pure ()
  · exact isQuiet_stop _

theorem isQuiet_compile (name : String) (roots : Roots) (document : Option String) :
    (compile name roots document).IsQuiet := by
  cases document with
  | none => exact (isQuiet_ofExcept _ _).bind fun _ => isQuiet_pure _
  | some path =>
    exact isQuiet_files.bind fun _ => (isQuiet_ofExcept _ _).bind fun _ =>
      (isQuiet_ofExcept _ _).bind fun _ => isQuiet_pure _

theorem isQuiet_generate (input : Input) (dispatcher document : Option String) :
    (generate input dispatcher document).IsQuiet :=
  (isQuiet_readInput input).bind fun _ => (isQuiet_checkRoots _).bind fun _ =>
    isQuiet_compile _ _ _

theorem run_files (w : World) : files.run w = (.ok w.tree, w) := rfl

theorem run_ofExcept_ok (failure : ε → Failure) (a : α) (w : World) :
    (ofExcept failure (.ok a)).run w = (.ok a, w) := rfl

theorem run_ofExcept_error (failure : ε → Failure) (e : ε) (w : World) :
    (ofExcept failure (.error e) : Work α).run w =
      (.error (failure e).exitCode, w.withMessage (failure e)) := rfl

theorem run_print (line : String) (w : World) :
    (print line).run w = (.ok (), { w with stdout := w.stdout ++ (line ++ "\n") }) := rfl

variable {path text : String}

theorem run_writeFile_of_eq_none (h : w.tree.write? path text = none) :
    (writeFile path text).run w =
      (.error (Failure.write path).exitCode, w.withMessage (.write path)) := by
  rw [writeFile, run_bind_of_ok (run_files w), h]
  rfl

theorem run_writeFile_of_eq_some {tree : FileTree} (h : w.tree.write? path text = some tree) :
    (writeFile path text).run w = (.ok (), { w with tree }) := by
  rw [writeFile, run_bind_of_ok (run_files w), h]
  rfl

end Work

namespace Command

variable {c : Command} {t : FileTree}

/-- Whatever can go wrong up to the document that a command gives, nothing has happened by then. -/
theorem isQuiet_document (c : Command) : c.document.IsQuiet := by
  cases c with
  | generate input dispatcher document => exact Work.isQuiet_generate input dispatcher document
  | seed source => exact (Work.isQuiet_loadWhole source).bind fun _ => Work.isQuiet_pure _
  | catalogEntry source => exact (Work.isQuiet_loadWhole source).bind fun _ => Work.isQuiet_pure _

/-- The document that a command emits, the file that it goes to, if to any, and whether the document
is laid out over many lines. -/
inductive Emits (t : FileTree) : Command → Json → Option String → Bool → Prop where
  | generate {input : Input} {dispatcher document output : Option String} {pretty : Bool}
    {j : Json} :
    (Work.generate input dispatcher document).run ⟨t, "", ""⟩ = (.ok j, ⟨t, "", ""⟩) →
    Emits t (.generate input dispatcher document output pretty) j output pretty
  | seed {source : String} {pretty : Bool} {schema : Schema} :
    (Work.loadWhole source).run ⟨t, "", ""⟩ = (.ok schema, ⟨t, "", ""⟩) →
    Emits t (.seed source pretty) schema.seed none pretty
  | catalogEntry {source : String} {pretty : Bool} {schema : Schema} :
    (Work.loadWhole source).run ⟨t, "", ""⟩ = (.ok schema, ⟨t, "", ""⟩) →
    Emits t (.catalogEntry source pretty) schema.catalogEntry none pretty

theorem emits_of_run_document {j : Json}
    (h : c.document.run ⟨t, "", ""⟩ = (.ok j, ⟨t, "", ""⟩)) : c.Emits t j c.output? c.isPretty := by
  cases c with
  | generate input dispatcher document output pretty => exact .generate h
  | seed source pretty =>
    rcases Work.isQuiet_loadWhole source ⟨t, "", ""⟩ with ⟨schema, hs⟩ | ⟨f, hf⟩
    · cases (run_bind_of_ok hs).symm.trans h
      exact .seed hs
    · cases (run_bind_of_error hf).symm.trans h
  | catalogEntry source pretty =>
    rcases Work.isQuiet_loadWhole source ⟨t, "", ""⟩ with ⟨schema, hs⟩ | ⟨f, hf⟩
    · cases (run_bind_of_ok hs).symm.trans h
      exact .catalogEntry hs
    · cases (run_bind_of_error hf).symm.trans h

inductive Ends (c : Command) (t : FileTree) : Outcome → Prop where
  | stopped (f : Failure) : Ends c t ⟨f.exitCode, "", f.message ++ "\n", t⟩
  | printed (j : Json) (pretty : Bool) : c.Emits t j none pretty →
      Ends c t ⟨0, (if pretty then j.pretty else j.compact) ++ "\n", "", t⟩
  | written (j : Json) (pretty : Bool) (path : String) (place : Place) (t' : FileTree) :
      c.Emits t j (some path) pretty →
      t.Wrote place (if pretty then j.pretty else j.compact) t' →
      t'.resolve? path = some place → Ends c t ⟨0, "", "", t'⟩

theorem Ends.of_message (f : Failure) :
    c.Ends t (.ofRun (.error f.exitCode, World.withMessage ⟨t, "", ""⟩ f)) := by
  have hline : "" ++ (f.message ++ "\n") = f.message ++ "\n" := String.empty_append
  rw [World.withMessage, hline]
  exact .stopped f

theorem ends_run (c : Command) (t : FileTree) : c.Ends t (c.run t) := by
  unfold run work
  rcases c.isQuiet_document ⟨t, "", ""⟩ with ⟨j, hj⟩ | ⟨f, hf⟩
  · have he : c.Emits t j c.output? c.isPretty := emits_of_run_document hj
    rw [run_bind_of_ok hj]
    cases ho : c.output? with
    | none =>
      have hline : "" ++ (c.render j ++ "\n") = c.render j ++ "\n" := String.empty_append
      rw [Work.emit, Work.run_print, hline]
      exact .printed j c.isPretty (ho ▸ he)
    | some path =>
      rw [Work.emit]
      cases ht : t.write? path (c.render j) with
      | none =>
        rw [Work.run_writeFile_of_eq_none (w := ⟨t, "", ""⟩) ht]
        exact .of_message _
      | some t' =>
        rw [Work.run_writeFile_of_eq_some (w := ⟨t, "", ""⟩) ht]
        obtain ⟨place, -, hw, hr⟩ := FileTree.of_write? ht
        exact .written j c.isPretty path place t' (ho ▸ he) hw hr
  · rw [run_bind_of_error hf]
    exact .of_message f

end Command

theorem run_of_parse {words : List String} {c : Command} (h : parse words = .ok c)
    (t : FileTree) : run t words = c.run t := by
  rw [run, h]

theorem run_of_halt {words : List String} {halt : Halt} (h : parse words = .error halt)
    (t : FileTree) : run t words = halt.outcome t := by
  rw [run, h]

/-- A run that fails leaves all files as they were and prints nothing to the standard output. A
run that succeeds has a document to emit, over many lines or on one, as a text that a reader reads
back. The run prints this text as a line and leaves all files as they were, or it prints nothing
and writes the text to the output file. Then no other place has changed, and every path that does
not lead to the output file is read as before. -/
theorem run_of_command {words : List String} {c : Command} (hc : parse words = .ok c)
    (t : FileTree) :
    ((run t words).exitCode ≠ 0 → (run t words).stdout = "" ∧ (run t words).tree = t) ∧
    ((run t words).exitCode = 0 → ∃ j output pretty text, c.Emits t j output pretty ∧
      text = (if pretty then j.pretty else j.compact) ∧
      (j.WellFormed →
        Json.read? text = if j.depth ≤ Json.nestingLimit then some j.reread else none) ∧
      (output = none → (run t words).stdout = text ++ "\n" ∧ (run t words).tree = t) ∧
      ∀ path, output = some path → (run t words).stdout = "" ∧
        (run t words).tree.read path = .text text ∧
        ∃ place, (run t words).tree.resolve? path = some place ∧
          t.Wrote place text (run t words).tree ∧
          ∀ other, (run t words).tree.resolve? other ≠ some place →
            (run t words).tree.read other = t.read other) := by
  have hrun : run t words = c.run t := by rw [run, hc]
  have hends := c.ends_run t
  rw [hrun]
  generalize c.run t = outcome at hends ⊢
  cases hends with
  | stopped f => exact ⟨fun _ => ⟨rfl, rfl⟩, fun h => absurd h f.exitCode_ne_zero⟩
  | printed j pretty he =>
    have hread (h : j.WellFormed) := Json.read?_text h pretty
    exact ⟨fun h => absurd rfl h, fun _ => ⟨j, none, pretty, _, he, rfl, hread,
      fun _ => ⟨rfl, rfl⟩, nofun⟩⟩
  | written j pretty path place t' he hw hr =>
    have hread (h : j.WellFormed) := Json.read?_text h pretty
    refine ⟨fun h => absurd rfl h, fun _ => ⟨j, some path, pretty, _, he, rfl, hread,
      nofun, fun path' hp => ?_⟩⟩
    cases hp
    exact ⟨rfl, hw.read_of_resolve? hr, place, hr, hw, fun other h => hw.read_eq h⟩

def hostedNote : FileTree where
  entries := [(["host.json"], .file (.text "\x7b\"openapi\":\"3.0.0\"\x7d")),
    (["note.json"], .file (.text (Json.obj [("properties", .obj [("text", .obj []), ("note",
      .obj [("$id", .str "note"), ("title", .str "Note"), ("type", .str "object"),
        (Schema.controllerKey, .str "notes")])])]).compact))]
  current := []

def hostedWords : List String :=
  ["generate", "note.json", "--doc", "host.json", "--output", "host.json"]

def noteWords : List String := ["blank", "note.json", "--pretty"]

theorem run_of_hosted_note : (run hostedNote hostedWords).exitCode = 0 ∧
    (run hostedNote hostedWords).stdout = "" ∧
    (∃ c j, parse hostedWords = .ok c ∧ c.Emits hostedNote j (some "host.json") false ∧
      (run hostedNote hostedWords).tree.read "host.json" = .text j.compact ∧
      j.get? "openapi" = some (.str "3.0.0") ∧
      ["paths", "/note", "get", "operationId"].foldlM Json.get? j = some (.str "getItem /note")) ∧
    (run hostedNote hostedWords).tree.read "note.json" = hostedNote.read "note.json" ∧
    (run hostedNote noteWords).exitCode = 0 ∧
    (run hostedNote noteWords).stdout = "\x7b\n  \"text\": null\n\x7d\n" ∧
    (run hostedNote noteWords).tree = hostedNote := by
  have hwords : parse hostedWords = .ok (.generate (.schema "note.json" "") none
      (some "host.json") (some "host.json") false) := by decide +kernel
  have hcode : (run hostedNote hostedWords).exitCode = 0 := by decide +kernel
  have hhost : hostedNote.resolve? "host.json" = some ["host.json"] := by decide +kernel
  have hnote : hostedNote.resolve? "note.json" = some ["note.json"] := by decide +kernel
  have hfound : ((Work.generate (.schema "note.json" "") none (some "host.json")).run
      ⟨hostedNote, "", ""⟩).1.map (fun j =>
        (j.get? "openapi", ["paths", "/note", "get", "operationId"].foldlM Json.get? j)) =
      .ok (some (.str "3.0.0"), some (.str "getItem /note")) := by decide +kernel
  have hwords' : parse noteWords = .ok (.seed "note.json" true) := by decide +kernel
  have hcode' : (run hostedNote noteWords).exitCode = 0 := by decide +kernel
  have hline : (run hostedNote noteWords).stdout = "\x7b\n  \"text\": null\n\x7d\n" := by
    decide +kernel
  obtain ⟨j, output, pretty, text, he, htext, -, -, hwritten⟩ :=
    (run_of_command hwords hostedNote).2 hcode
  obtain ⟨seed, output', _, _, he', -, -, hprinted, -⟩ :=
    (run_of_command hwords' hostedNote).2 hcode'
  obtain rfl : output = some "host.json" := by cases he; rfl
  obtain rfl : pretty = false := by cases he; rfl
  obtain rfl : text = j.compact := htext
  obtain rfl : output' = none := by cases he'; rfl
  obtain ⟨hout, hread, place, hr, hw, hothers⟩ := hwritten "host.json" rfl
  have hj : (Work.generate (.schema "note.json" "") none (some "host.json")).run
      ⟨hostedNote, "", ""⟩ = (.ok j, ⟨hostedNote, "", ""⟩) := by
    cases he
    assumption
  rw [hj] at hfound
  obtain ⟨hversion, hpath⟩ := Prod.mk.inj (Except.ok.inj hfound)
  refine ⟨hcode, hout, ⟨_, j, hwords, he, hread, hversion, hpath⟩, hothers _ ?_, hcode', hline,
    (hprinted rfl).2⟩
  intro hsame
  have hplace := (hw.followAll_mono hhost).symm.trans hr
  have hplace' := (hw.followAll_mono hnote).symm.trans hsame
  exact absurd (hplace.trans hplace'.symm) (by decide)

end SchemaRoutes.CommandLine
