import SchemaRoutes.CommandLine.Arguments
import SchemaRoutes.Proofs.Json.Members

/-! # Reading words

What an option takes from the words does not depend on how its value is given to it. Words that
choose a dispatcher, a host document and the layout say the same behind a schema and behind a
manifest, so the two commands differ in their inputs only.
-/

namespace SchemaRoutes.CommandLine

def Valued.name : Valued → String
  | baseUrl => "base-url"
  | dispatcher => "controller"
  | document => "doc"
  | manifest => "config"
  | output => "output"

/-- The words that give an option its value: two words, unless the value looks like an option
itself, or one word. -/
inductive Sets (option : Valued) (value : String) : List String → Prop where
  | apart : looksLikeOption value = false → Sets option value ["--" ++ option.name, value]
  | joined : Sets option value ["--" ++ option.name ++ "=" ++ value]

def Valued.IsChoice (option : Valued) : Prop := option = dispatcher ∨ option = document

instance : DecidablePred Valued.IsChoice := fun option =>
  inferInstanceAs (Decidable (option = .dispatcher ∨ option = .document))

/-- Words that choose a dispatcher, a host document and the layout, in a sensible way or not. -/
inductive Choices : List String → Prop where
  | nil : Choices []
  | pretty {words : List String} : Choices words → Choices ("--pretty" :: words)
  | apart {option : Valued} {words : List String} (value : String) :
      option.IsChoice → Choices words → Choices (("--" ++ option.name) :: value :: words)
  | joined {option : Valued} {words : List String} (value : String) :
      option.IsChoice → Choices words → Choices (("--" ++ option.name ++ "=" ++ value) :: words)

section Reading

variable {g : Given} {option : Valued} {value : String} {verb : Verb}

theorem longParts_name (option : Valued) : longParts option.name.toList = (option.name, none) := by
  cases option <;> rfl

theorem longParts_name_value (option : Valued) (value : String) :
    longParts (option.name.toList ++ '=' :: value.toList) = (option.name, some value) := by
  cases option <;> simp [longParts, Valued.name]

theorem readLong_name (g : Given) (option : Valued) :
    readLong .generate g option.name.toList =
      if (g.value? option).isSome then .error .usage
      else .ok { g with pending := some option } := by
  rw [readLong, longParts_name]
  cases option <;> rfl

theorem readLong_name_value (g : Given) (option : Valued) (value : String) :
    readLong .generate g (option.name.toList ++ '=' :: value.toList) = g.setValue option value := by
  rw [readLong, longParts_name_value]
  cases option <;> rfl

structure Given.IsReady (g : Given) : Prop where
  options : g.onlySources = false
  nothing : g.pending = none

theorem readWord_long (hg : g.IsReady) {word : String} {c : Char} {body : List Char}
    (h : word.toList = '-' :: '-' :: c :: body) :
    readWord verb g word = readLong verb g (c :: body) := by
  rw [readWord, hg.options, hg.nothing, h]
  rfl

theorem readWord_pretty (hg : g.IsReady) : readWord verb g "--pretty" = g.setPretty := by
  have hparts : longParts "pretty".toList = ("pretty", none) := rfl
  have hlong : readLong verb g "pretty".toList = g.setPretty := by
    rw [readLong, hparts]
    rfl
  rw [← hlong]
  exact readWord_long hg rfl

theorem readWord_name (hg : g.IsReady) (option : Valued) :
    readWord .generate g ("--" ++ option.name) =
      if (g.value? option).isSome then .error .usage
      else .ok { g with pending := some option } := by
  rw [← readLong_name]
  cases option <;> exact readWord_long hg rfl

theorem readWord_name_value (hg : g.IsReady) (option : Valued) (value : String) :
    readWord .generate g ("--" ++ option.name ++ "=" ++ value) = g.setValue option value := by
  have hword : ("--" ++ option.name ++ "=" ++ value).toList =
      '-' :: '-' :: (option.name.toList ++ '=' :: value.toList) := by
    simp [String.toList_append]
  rw [← readLong_name_value]
  cases option <;> exact readWord_long hg hword

theorem readWord_source (hg : g.IsReady) {source : String} (h : looksLikeOption source = false) :
    readWord verb g source = g.setSource source := by
  unfold looksLikeOption at h
  rw [readWord, hg.options, hg.nothing, if_neg Bool.false_ne_true]
  dsimp only
  split
  · next he => simp [he] at h
  · next he => simp [he] at h
  · next he => simp [he] at h
  · rfl

theorem readWord_value (verb : Verb) {word : String} (hg : g.onlySources = false)
    (hp : g.pending = some option) :
    readWord verb g word =
      if looksLikeOption word then .error .usage else g.setValue option word := by
  rw [readWord, hg, hp]
  rfl

theorem setValue_eq (g : Given) (option : Valued) (value : String) :
    g.setValue option value =
      if g.value? option = none ∧ option.accepts value = true then
        .ok { g with values := g.values ++ [(option, value)], pending := none }
      else .error .usage := by
  unfold Given.setValue
  cases g.value? option <;> cases option.accepts value <;> rfl

theorem readWord_name_then (hg : g.IsReady) (option : Valued) (value : String) :
    (readWord .generate g ("--" ++ option.name) >>= fun g => readWord .generate g value) =
      if looksLikeOption value then .error .usage else g.setValue option value := by
  rw [readWord_name hg]
  cases hn : g.value? option with
  | some v =>
    have hset : g.setValue option value = .error .usage := by
      rw [setValue_eq, hn, if_neg fun h => Option.some_ne_none v h.1]
    rw [hset, ite_self]
    rfl
  | none => exact readWord_value .generate hg.options rfl

theorem foldlM_name_value (hg : g.IsReady) (option : Valued) (value : String)
    (words : List String) :
    (("--" ++ option.name) :: value :: words).foldlM (readWord .generate) g =
      (if looksLikeOption value then .error .usage else g.setValue option value) >>=
        fun g => words.foldlM (readWord .generate) g := by
  rw [← readWord_name_then hg, bind_assoc, List.foldlM_cons]
  simp only [List.foldlM_cons]

theorem Sets.foldlM_append {words : List String} (h : Sets option value words) (hg : g.IsReady)
    (ha : option.accepts value = true) (hn : g.value? option = none) (others : List String) :
    (words ++ others).foldlM (readWord .generate) g =
      others.foldlM (readWord .generate)
        { g with values := g.values ++ [(option, value)], pending := none } := by
  have hset : g.setValue option value =
      .ok { g with values := g.values ++ [(option, value)], pending := none } := by
    rw [setValue_eq, if_pos ⟨hn, ha⟩]
  cases h with
  | apart hv =>
    rw [List.cons_append, List.singleton_append, foldlM_name_value hg, hv, hset]
    rfl
  | joined =>
    rw [List.singleton_append, List.foldlM_cons, readWord_name_value hg, hset]
    rfl

end Reading

structure Choice where
  values : List (Valued × String)
  pretty : Bool
  isChoice : ∀ v ∈ values, v.1.IsChoice

namespace Choice

variable {option : Valued}

def none : Choice := ⟨[], false, nofun⟩

def setPretty (choice : Choice) : Except Halt Choice :=
  if choice.pretty then .error .usage else .ok { choice with pretty := true }

def setValue (choice : Choice) (value : String) (ho : option.IsChoice) : Except Halt Choice :=
  if choice.values.lookup option = Option.none ∧ option.accepts value = true then
    .ok {
      values := choice.values ++ [(option, value)]
      pretty := choice.pretty
      isChoice := List.forall_mem_append.mpr
        ⟨choice.isChoice, List.forall_mem_singleton.mpr ho⟩ }
  else .error .usage

theorem lookup_eq_none (choice : Choice) (ho : ¬ option.IsChoice) :
    choice.values.lookup option = Option.none := by
  refine List.lookup_eq_none_iff.mpr fun v hv => ?_
  have hne : option ≠ v.1 := fun he => ho (he ▸ choice.isChoice v hv)
  exact bne_iff_ne.mpr hne

end Choice

/-- The words read so far: a source or none, a first value, and what has been chosen behind it. -/
def Given.chosen (source : Option String) (first : Valued × String) (choice : Choice) : Given :=
  ⟨false, choice.pretty, source, first :: choice.values, none, false⟩

section Choosing

variable {source : Option String} {first : Valued × String} {choice : Choice} {option : Valued}
  {words : List String}

theorem isReady_chosen : (Given.chosen source first choice).IsReady := ⟨rfl, rfl⟩

theorem value?_chosen (h : option ≠ first.1) :
    (Given.chosen source first choice).value? option = choice.values.lookup option :=
  lookup_cons_eq_ite.trans (if_neg h)

theorem setPretty_chosen : (Given.chosen source first choice).setPretty =
    choice.setPretty.map (.chosen source first) := by
  unfold Given.setPretty Choice.setPretty Given.chosen
  split <;> rfl

theorem setValue_chosen (hf : ¬ first.1.IsChoice) (value : String) (ho : option.IsChoice) :
    (Given.chosen source first choice).setValue option value =
      (choice.setValue value ho).map (.chosen source first) := by
  have hne : option ≠ first.1 := fun he => hf (he ▸ ho)
  rw [setValue_eq, value?_chosen hne, Choice.setValue]
  split <;> rfl

/-- The words come to the same choice or halt, whatever has been read before them. -/
def Reads (words : List String) (choice : Choice) (r : Except Halt Choice) : Prop :=
  ∀ source first, ¬ first.1.IsChoice →
    words.foldlM (readWord .generate) (.chosen source first choice) = r.map (.chosen source first)

/-- A choice is made or refused, and then the other words are read. -/
theorem exists_reads_bind (h : ∀ choice, ∃ r, Reads words choice r) (made : Except Halt Choice) :
    ∃ r : Except Halt Choice, ∀ source first, ¬ first.1.IsChoice →
      (made.map (.chosen source first) >>= fun g => words.foldlM (readWord .generate) g) =
        r.map (.chosen source first) := by
  cases made with
  | error halt => exact ⟨.error halt, fun _ _ _ => rfl⟩
  | ok choice => exact h choice

theorem Choices.exists_reads (h : Choices words) (choice : Choice) :
    ∃ r, Reads words choice r := by
  -- The choice so far is all that these words look at, so the result is named once for all.
  induction h generalizing choice with
  | nil => exact ⟨.ok choice, fun _ _ _ => rfl⟩
  | pretty _ ih =>
    obtain ⟨r, hr⟩ := exists_reads_bind ih choice.setPretty
    refine ⟨r, fun source first hf => ?_⟩
    rw [← hr source first hf, List.foldlM_cons, readWord_pretty isReady_chosen, setPretty_chosen]
  | apart value ho _ ih =>
    obtain ⟨r, hr⟩ := exists_reads_bind ih
      (if looksLikeOption value then .error .usage else choice.setValue value ho)
    refine ⟨r, fun source first hf => ?_⟩
    rw [← hr source first hf, foldlM_name_value isReady_chosen, setValue_chosen hf value ho]
    congr 1
    split <;> rfl
  | joined value ho _ ih =>
    obtain ⟨r, hr⟩ := exists_reads_bind ih (choice.setValue value ho)
    refine ⟨r, fun source first hf => ?_⟩
    rw [← hr source first hf, List.foldlM_cons, readWord_name_value isReady_chosen,
      setValue_chosen hf value ho]

end Choosing

/-! ## The commands -/

def Choice.command (choice : Choice) (input : Input) : Command :=
  .generate input (choice.values.lookup .dispatcher) (choice.values.lookup .document) Option.none
    choice.pretty

section Commands

variable {choice : Choice} {path baseUrl config : String} {words others : List String}
  {r : Except Halt Choice}

theorem command_chosen_schema (path baseUrl : String) (choice : Choice) :
    (Given.chosen (some path) (.baseUrl, baseUrl) choice).command .generate =
      .ok (choice.command (.schema path baseUrl)) := by
  have hmanifest : choice.values.lookup .manifest = none := choice.lookup_eq_none (by decide)
  have houtput : choice.values.lookup .output = none := choice.lookup_eq_none (by decide)
  simp [Given.command, Given.chosen, Given.value?, lookup_cons_eq_ite, hmanifest, houtput,
    Choice.command]

theorem command_chosen_manifest (config : String) (choice : Choice) :
    (Given.chosen none (.manifest, config) choice).command .generate =
      .ok (choice.command (.manifest config)) := by
  have hbase : choice.values.lookup .baseUrl = none := choice.lookup_eq_none (by decide)
  have houtput : choice.values.lookup .output = none := choice.lookup_eq_none (by decide)
  simp [Given.command, Given.chosen, Given.value?, lookup_cons_eq_ite, hbase, houtput,
    Choice.command]

theorem parse_generate (words : List String) : parse ("generate" :: words) =
    words.foldlM (readWord .generate) Given.start >>= (Given.command .generate ·) := rfl

theorem parse_schema (hp : looksLikeOption path = false) (hb : Sets .baseUrl baseUrl words)
    (hr : Reads others .none r) : parse ("generate" :: path :: (words ++ others)) =
      r.map fun choice => choice.command (.schema path baseUrl) := by
  have hsource : readWord .generate Given.start path =
      .ok { Given.start with source := some path } :=
    (readWord_source ⟨rfl, rfl⟩ hp).trans rfl
  have hread := hb.foldlM_append (g := { Given.start with source := some path })
    ⟨rfl, rfl⟩ rfl rfl others
  have hfirst : ¬ Valued.baseUrl.IsChoice := by decide
  have hothers := hr (some path) (.baseUrl, baseUrl) hfirst
  rw [parse_generate, List.foldlM_cons, hsource]
  refine (congrArg (· >>= (Given.command .generate ·)) (hread.trans hothers)).trans ?_
  cases r with
  | error halt => rfl
  | ok choice => exact command_chosen_schema path baseUrl choice

theorem parse_manifest (hne : config ≠ "") (hc : Sets .manifest config words)
    (hr : Reads others .none r) : parse ("generate" :: (words ++ others)) =
      r.map fun choice => choice.command (.manifest config) := by
  have haccepts : Valued.manifest.accepts config = true := by simpa [Valued.accepts] using hne
  have hread := hc.foldlM_append (g := Given.start) ⟨rfl, rfl⟩ haccepts rfl others
  have hfirst : ¬ Valued.manifest.IsChoice := by decide
  have hothers := hr none (.manifest, config) hfirst
  rw [parse_generate]
  refine (congrArg (· >>= (Given.command .generate ·)) (hread.trans hothers)).trans ?_
  cases r with
  | error halt => rfl
  | ok choice => exact command_chosen_manifest config choice

end Commands

end SchemaRoutes.CommandLine
