import SchemaRoutes.CommandLine.Arguments
import SchemaRoutes.Host.Manifest
import SchemaRoutes.Host.State
import SchemaRoutes.Schema.Validity

/-! # Running commands

A command reads the file tree, prints one document or writes it to a file, or stops with a message
and an exit code.
-/

namespace SchemaRoutes.CommandLine

inductive Failure where
  | load (error : SourceError)
  | reference (source : String) (error : SourceError)
  | compile (error : CompileError)
  | write (path : String)
  deriving DecidableEq, Repr

namespace Failure

def message : Failure → String
  | load e => "Error: " ++ e.message
  | reference source e => "Error dereferencing " ++ source ++ ": " ++ e.message
  | compile e => "Error: " ++ e.message
  | write path => "Error writing to " ++ path ++ ": not a file that can be written"

def exitCode : Failure → Nat
  | load e | reference _ e => e.exitCode
  | compile e => e.exitCode
  | write _ => 3

end Failure

/-- The files, and what has been printed so far. -/
structure World where
  tree : FileTree
  stdout : String
  stderr : String

/-- What a command does, unless it stops with an exit code. -/
abbrev Work := ExceptT Nat (StateM World)

namespace Work

variable {α : Type}

def files : Work FileTree := return (← get).tree

def print (line : String) : Work Unit :=
  modify fun w => { w with stdout := w.stdout ++ (line ++ "\n") }

def stop (f : Failure) : Work α := do
  modify fun w => { w with stderr := w.stderr ++ (f.message ++ "\n") }
  throw f.exitCode

def ofExcept {ε : Type} (failure : ε → Failure) : Except ε α → Work α
  | .ok a => return a
  | .error e => stop (failure e)

def writeFile (path text : String) : Work Unit := do
  match (← files).write? path text with
  | some tree => modify fun w => { w with tree }
  | none => stop (.write path)

/-- A schema without references; those of a URL start from the current directory. -/
def loadWhole (source : String) : Work Json := do
  let schema ← ofExcept .load ((← files).loadSource source)
  let directory := if isUrl source then "." else Path.directory source
  ofExcept (.reference source) (inlineReferences (← files) schema directory)

/-- The roots to compile, with the dispatcher and the host document that a manifest names. -/
def readInput : Input → Work (Roots × Option String × Option String)
  | .manifest path => do
    let manifest ← ofExcept .load (Manifest.load (← files) path)
    let roots ← ofExcept .load (manifest.roots (← files))
    return (roots, manifest.dispatcher, manifest.document)
  | .schema source baseUrl => do
    let schema ← loadWhole source
    return ([⟨schema, baseUrl⟩], none, none)

def checkRoots (roots : Roots) : Work Unit :=
  roots.forM fun root =>
    if Schema.isValid root.schema then return () else stop (.load .notASchema)

/-- The document into which the roots are installed, or else one that is made for them. -/
def compile (name : String) (roots : Roots) : Option String → Work Json
  | some path => do
    let (result, doc) := (Api.install name roots).run (← ofExcept .load ((← files).load path))
    let _ ← ofExcept .compile result
    return doc
  | none => do
    let api ← ofExcept .compile (Api.ofRoots name roots)
    return api.toOpenApi

/-- What is given on the command line wins over what the manifest names. -/
def generate (input : Input) (dispatcher document : Option String) : Work Json := do
  let (roots, listedDispatcher, listedDocument) ← readInput input
  checkRoots roots
  let name := (dispatcher.or listedDispatcher).getD (generatedName generatedBaseName 0)
  compile name roots (document.or listedDocument)

/-- Writes a text to a file, or prints it as a line. -/
def emit (text : String) : Option String → Work Unit
  | some path => writeFile path text
  | none => print text

end Work

namespace Command

/-- The document that a command gives. -/
def document : Command → Work Json
  | generate input dispatcher document _ _ => Work.generate input dispatcher document
  | seed source _ => return Schema.seed (← Work.loadWhole source)
  | catalogEntry source _ => return Schema.catalogEntry (← Work.loadWhole source)

def output? : Command → Option String
  | generate _ _ _ output _ => output
  | _ => none

def isPretty : Command → Bool
  | generate _ _ _ _ pretty | seed _ pretty | catalogEntry _ pretty => pretty

def render (c : Command) (j : Json) : String := if c.isPretty then j.pretty else j.compact

def work (c : Command) : Work Unit := do Work.emit (c.render (← c.document)) c.output?

end Command

/-- What is left of a run. -/
structure Outcome where
  exitCode : Nat
  stdout : String
  stderr : String
  tree : FileTree

def Outcome.ofRun : Except Nat Unit × World → Outcome
  | (.ok (), w) => ⟨0, w.stdout, w.stderr, w.tree⟩
  | (.error code, w) => ⟨code, w.stdout, w.stderr, w.tree⟩

def Command.run (t : FileTree) (c : Command) : Outcome := .ofRun (c.work.run ⟨t, "", ""⟩)

def usage : String :=
  "usage: jsonschema-rest [-v] generate (SCHEMA [--base-url URL] | --config FILE)\n" ++
  "         [--controller NAME] [--doc FILE] [--output FILE] [--pretty]\n" ++
  "       jsonschema-rest [-v] (blank | component) SCHEMA [--pretty]\n"

def Halt.outcome (t : FileTree) : Halt → Outcome
  | .usage => ⟨2, "", CommandLine.usage, t⟩
  | .help => ⟨0, CommandLine.usage, "", t⟩
  | .version => ⟨0, "jsonschema-rest 0.1.0\n", "", t⟩

def run (t : FileTree) (words : List String) : Outcome :=
  match parse words with
  | .ok command => command.run t
  | .error halt => halt.outcome t

end SchemaRoutes.CommandLine
