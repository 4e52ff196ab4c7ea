/-! # Arguments

The words of a command line. Options may stand anywhere after the command, each at most once; two
dashes end them.
-/

namespace SchemaRoutes.CommandLine

/-- What a compilation starts from. -/
inductive Input where
  | schema (source baseUrl : String)
  | manifest (path : String)
  deriving DecidableEq, Repr

inductive Command where
  | generate (input : Input) (dispatcher document output : Option String) (pretty : Bool)
  /-- Prints the value that a new resource starts from. -/
  | seed (source : String) (pretty : Bool)
  | catalogEntry (source : String) (pretty : Bool)
  deriving DecidableEq, Repr

/-- Why no command is run. -/
inductive Halt where
  | usage
  | help
  | version
  deriving DecidableEq, Repr

inductive Verb where
  | generate | seed | catalogEntry
  deriving DecidableEq, Repr

def Verb.ofName? : String → Option Verb
  | "generate" => some .generate
  | "blank" => some .seed
  | "component" => some .catalogEntry
  | _ => none

inductive Valued where
  | baseUrl | dispatcher | document | manifest | output
  deriving DecidableEq, Repr

namespace Valued

def ofName? : String → Option Valued
  | "base-url" => some baseUrl
  | "controller" => some dispatcher
  | "doc" => some document
  | "config" => some manifest
  | "output" => some output
  | _ => none

/-- Paths may not be empty. -/
def accepts (option : Valued) (value : String) : Bool :=
  match option with
  | baseUrl | dispatcher => true
  | document | manifest | output => !value.isEmpty

end Valued

/-- What has been read of the words after a command. -/
structure Given where
  verbose : Bool
  pretty : Bool
  source : Option String
  values : List (Valued × String)
  /-- An option whose value comes next. -/
  pending : Option Valued
  onlySources : Bool

namespace Given

def start : Given := ⟨false, false, none, [], none, false⟩

def setVerbose (g : Given) : Except Halt Given :=
  if g.verbose then .error .usage else .ok { g with verbose := true }

def setPretty (g : Given) : Except Halt Given :=
  if g.pretty then .error .usage else .ok { g with pretty := true }

def setSource (g : Given) (source : String) : Except Halt Given :=
  if g.source.isSome || g.pending.isSome then .error .usage
  else .ok { g with source := some source }

def value? (g : Given) (option : Valued) : Option String := g.values.lookup option

def setValue (g : Given) (option : Valued) (value : String) : Except Halt Given :=
  if (g.value? option).isSome || !option.accepts value then .error .usage
  else .ok { g with values := g.values ++ [(option, value)], pending := none }

end Given

/-- Whether a word cannot be the value of the option before it. -/
def looksLikeOption (word : String) : Bool :=
  match word.toList with
  | '-' :: _ :: _ => true
  | _ => false

/-- The name of a long option and the value written with it. -/
def longParts (body : List Char) : String × Option String :=
  let name := String.ofList (body.takeWhile (· ≠ '='))
  match body.dropWhile (· ≠ '=') with
  | [] => (name, none)
  | _ :: value => (name, some (String.ofList value))

def readLong (verb : Verb) (g : Given) (body : List Char) : Except Halt Given :=
  match longParts body with
  | ("help", none) => .error .help
  | ("verbose", none) => g.setVerbose
  | ("pretty", none) => g.setPretty
  | (name, value) =>
    if verb = .generate then
      match Valued.ofName? name, value with
      | some option, some value => g.setValue option value
      | some option, none =>
        if (g.value? option).isSome then .error .usage else .ok { g with pending := some option }
      | none, _ => .error .usage
    else .error .usage

def readShort (g : Given) (c : Char) : Except Halt Given :=
  if c = 'v' then g.setVerbose
  else if c = 'h' then .error .help
  else .error .usage

def readWord (verb : Verb) (g : Given) (word : String) : Except Halt Given :=
  if g.onlySources then g.setSource word
  else
    match g.pending with
    | some option =>
      if looksLikeOption word then .error .usage else g.setValue option word
    | none =>
      match word.toList with
      | ['-', '-'] => .ok { g with onlySources := true }
      | '-' :: '-' :: body => readLong verb g body
      | '-' :: c :: cs => (c :: cs).foldlM readShort g
      | _ => g.setSource word

/-- The command that the words ask for, once all of them are read. -/
def Given.command (verb : Verb) (g : Given) : Except Halt Command :=
  if g.pending.isSome then .error .usage
  else
    match verb, g.source, g.value? .manifest with
    | .seed, some source, _ => .ok (.seed source g.pretty)
    | .catalogEntry, some source, _ => .ok (.catalogEntry source g.pretty)
    | .generate, some source, none =>
      .ok (.generate (.schema source ((g.value? .baseUrl).getD "")) (g.value? .dispatcher)
        (g.value? .document) (g.value? .output) g.pretty)
    | .generate, none, some path =>
      if (g.value? .baseUrl).isSome then .error .usage
      else
        .ok (.generate (.manifest path) (g.value? .dispatcher) (g.value? .document)
          (g.value? .output) g.pretty)
    | _, _, _ => .error .usage

/-- Short options before the command; says whether the verbose one is among them. -/
def readLeadingShort (verbose : Bool) (c : Char) : Except Halt Bool :=
  if c = 'v' then (if verbose then .error .usage else .ok true)
  else if c = 'V' then .error .version
  else if c = 'h' then .error .help
  else .error .usage

def helpTopics : List String := ["generate", "blank", "component", "help"]

def parseFrom (verbose : Bool) : List String → Except Halt Command
  | [] => .error .usage
  | word :: words =>
    match Verb.ofName? word with
    | some verb => do (← words.foldlM (readWord verb) Given.start).command verb
    | none =>
      match word.toList with
      | '-' :: '-' :: body =>
        match String.ofList body with
        | "verbose" => if verbose then .error .usage else parseFrom true words
        | "version" => .error .version
        | "help" => .error .help
        | _ => .error .usage
      | '-' :: c :: cs => do parseFrom (← (c :: cs).foldlM readLeadingShort verbose) words
      | _ =>
        if word = "help" then
          match words with
          | [] => .error .help
          | [topic] => if helpTopics.contains topic then .error .help else .error .usage
          | _ => .error .usage
        else .error .usage

def parse (words : List String) : Except Halt Command := parseFrom false words

end SchemaRoutes.CommandLine
