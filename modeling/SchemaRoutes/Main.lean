import SchemaRoutes.CommandLine.Run

/-! # The program

Takes a picture of the files that a command may look at, runs the command on it, and carries out
what the outcome says.
-/

namespace SchemaRoutes.Program

open CommandLine

def placeOf (tree : FileTree) (path : String) : Place :=
  (Path.parts path).foldl
    (fun place part =>
      if part = ".." then place.dropLast else if Path.isStep part then place ++ [part] else place)
    (tree.start path)

/-- What lies under a path on disk; what is there and cannot be read counts as a directory. -/
def look (path : String) : IO (Option Entry) :=
  tryCatch
    (do return some (.file (.ofBytes (← IO.FS.readBinFile path).toList)))
    fun
      | .noFileOrDirectory .. => return none
      | _ => return some .directory

/-- Adds a path to the picture, with the directories on the way to it. -/
def record (tree : FileTree) (path : String) : IO FileTree := do
  let mut tree := tree
  let mut way := []
  for part in Path.parts path do
    way := way ++ [part]
    let spelling := Path.joinParts way
    let place := placeOf tree spelling
    if !spelling.isEmpty && (tree.entries.lookup place).isNone then
      if let some entry ← look spelling then
        tree := { tree with entries := (place, entry) :: tree.entries }
  return tree

/-- Adds a document and every document that its references lead to. -/
partial def recordDocument (tree : FileTree) (path : String) : IO FileTree := do
  if path.isEmpty || isUrl path || (tree.entries.lookup (placeOf tree path)).isSome then
    return tree
  let tree ← record tree path
  match tree.load path with
  | .error _ => return tree
  | .ok document =>
    (Reference.all document).foldlM
      (fun tree reference => do
        let location := (Reference.parts reference).1
        if location.isEmpty then return tree
        else recordDocument tree (Path.join (Path.directory path) location))
      tree

def recordInput (tree : FileTree) : Input → IO FileTree
  | .schema source _ => recordDocument tree source
  | .manifest path => do
    let tree ← record tree path
    match Manifest.load tree path with
    | .error _ => return tree
    | .ok manifest =>
      let tree ← manifest.document.toList.foldlM record tree
      manifest.schemas.foldlM (fun tree entry => recordDocument tree entry.path) tree

def recordCommand (tree : FileTree) : Command → IO FileTree
  | .generate input _ document output _ => do
    let tree ← recordInput tree input
    (document.toList ++ output.toList).foldlM record tree
  | .seed source _ | .catalogEntry source _ => recordDocument tree source

def picture (words : List String) : IO FileTree := do
  let current := (Path.parts (← IO.currentDir).toString).filter Path.isStep
  let tree : FileTree := ⟨[], current⟩
  match parse words with
  | .error _ => return tree
  | .ok command => recordCommand tree command

/-- Writes the output file of a command that succeeded. -/
def writeOutput (words : List String) (outcome : Outcome) : IO Unit := do
  if let .ok command := parse words then
    if let some path := command.output? then
      if let .text text := outcome.tree.read path then
        if outcome.exitCode = 0 then IO.FS.writeFile path text

end SchemaRoutes.Program

open SchemaRoutes in
def main (words : List String) : IO UInt32 := do
  let outcome := CommandLine.run (← Program.picture words) words
  try
    Program.writeOutput words outcome
    IO.print outcome.stdout
    IO.eprint outcome.stderr
    return outcome.exitCode.toUInt32
  catch e =>
    IO.eprintln s!"Error: {e}"
    return 3
