import WordAutomata.Command.Recognize
import WordAutomata.Command.Save

/-!
# The command line

The first argument names the command, the others are its arguments. What is at the paths that the
command uses is put into a world, the command runs in it, and the files that it changed are written
back.
-/
namespace WordAutomata.Command

/-- The paths that a task uses. -/
def RecognizeTask.paths (task : RecognizeTask) : List Files.Path :=
  let settings := (match task.source with
    | .file path => [path]
    | .language _ => []) ++ task.input.toList ++ task.output.toList
  settings.filterMap Setting.value?

/-- The paths that a path passes through, and the path itself. -/
def passed (path : Files.Path) : List Files.Path :=
  (List.range (path.names.length + 1)).map fun n => { path with names := path.names.take n }

/-- Whether a directory is at a path. -/
def isDirectory (path : Files.Path) : IO Bool := do
  try (← IO.FS.realPath path.text).isDir catch _ => return false

/-- The tree with the directory or file that is at a path. -/
def loadNode (t : Files.Tree) (path : Files.Path) : IO Files.Tree := do
  match t.locate path with
  | .error _ => return t
  | .ok place =>
    if ← isDirectory path then return t.put place .directory
    try return t.put place (.file (← IO.FS.readFile path.text)) catch _ => return t

/-- Writes the files that differ from what they were before. -/
def storeFiles (before after : Files.Tree) : IO Unit :=
  after.files.forM fun (place, content) => do
    if before.node? place ≠ some (.file content) then
      let path := Files.Location.path place
      IO.FS.createDirAll path.parent.text
      IO.FS.writeFile path.text content

/-- How the commands are called. -/
def usage : String :=
  "usage: recognize (--automaton FILE | --language NAME) [--input FILE] [--output FILE]" ++
    " [--delimiter TEXT] [--batched] [--batch-size N]\n" ++
    "       save-automaton --name NAME --output FILE"

/-- Shows how a command ended, and gives its exit code. -/
def conclude (before : Files.Tree) (ending : Ending) : IO UInt32 := do
  let finish (w : World) : IO Unit := do
    storeFiles before w.tree
    IO.print w.output
    w.log.forM IO.eprintln
  match ending with
  | .exited exit _ =>
    IO.eprintln usage
    return exit.code.toUInt32
  | .finished w =>
    finish w
    return 0
  | .failed failure w =>
    finish w
    IO.eprintln failure.message
    return 1

/-- Runs a command on what is at the paths and on the input, if it reads that. -/
def runProgram (program : Program) (args : List String) (paths : List Files.Path)
    (readsInput : Bool) : IO UInt32 := do
  let tree ← (paths.flatMap passed).foldlM loadNode .empty
  let input ← if readsInput then (← IO.getStdin).readToEnd else pure ""
  conclude tree (program args ⟨tree, input, "", []⟩)

end WordAutomata.Command

open WordAutomata.Command in
/-- Runs the command that the first argument names. -/
def main (args : List String) : IO UInt32 := do
  match args with
  | "recognize" :: args =>
    match recognizeTask args with
    | .ok task => runProgram recognize args task.paths task.input.isNone
    | .error _ => runProgram recognize args [] false
  | "save-automaton" :: args =>
    match saveTask args with
    | .ok (_, path) => runProgram save args path.value?.toList false
    | .error _ => runProgram save args [] false
  | _ => conclude .empty (.exited .misuse ⟨.empty, "", "", []⟩)
