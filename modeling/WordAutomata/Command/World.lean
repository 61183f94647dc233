import WordAutomata.Command.Arguments
import WordAutomata.Document
import WordAutomata.Files.Tree
import WordAutomata.Language.Named
import WordAutomata.Text.Lines
import WordAutomata.Word

/-!
# What a command sees and changes

A command reads files and its input, and changes files, its output and its log. Files are read with
every line end turned into a line feed. The input is taken to be a text stream that is opened in the
same way; one that hands on carriage returns as they are is outside of this.
-/
namespace WordAutomata.Command

/-- The files, what is left of the input, and what has been written so far. -/
structure World where
  tree : Files.Tree
  /-- What the input's stream is read from, before its line ends are turned into line feeds. -/
  input : String
  output : String
  log : List String
deriving DecidableEq

/-- What a command needs of a setting when it finds it blank. -/
inductive Need where
  /-- A file to open. -/
  | file
  /-- A directory to write in. -/
  | directory
  /-- The name of a language. -/
  | name
  | delimiter
  | batchSize
deriving DecidableEq

/-- The text of an unfulfilled need. -/
def Need.message : Need → String
  | .file => "'list' object has no attribute 'open'"
  | .directory => "'list' object has no attribute 'parent'"
  | .name => "unhashable type: 'list'"
  | .delimiter => "must be str or None, not list"
  | .batchSize => "'<' not supported between instances of 'list' and 'int'"

/-- Why a command failed after it had begun. -/
inductive Failure where
  | blank (need : Need)
  | path (error : Files.PathError)
  | document (error : DocumentError)
  | language (error : LanguageError)
  | decode (error : DecodeError)
deriving DecidableEq

/-- The text of a failure. -/
def Failure.message : Failure → String
  | .blank need => need.message
  | .path e => e.message
  | .document e => e.message
  | .language e => e.message
  | .decode e => e.message

/-- The value of a setting that must not be blank. -/
def Setting.require {α : Type} (need : Need) : Setting α → Except Failure α
  | .value a => .ok a
  | .blank => .error (.blank need)

/-- How a command ends. -/
inductive Ending where
  /-- The arguments were not such that the command could begin. -/
  | exited (exit : Exit) (world : World)
  | finished (world : World)
  | failed (failure : Failure) (world : World)

/-- What a command is: it takes its arguments and changes the world. -/
abbrev Program := List String → World → Ending

namespace World

/-- The text of a file. -/
def readFile (w : World) (path : Files.Path) : Except Failure String :=
  match w.tree.read path with
  | .ok content => .ok (String.ofList (Text.unifyLineEnds content.toList))
  | .error e => .error (.path e)

/-- The world in which a file is there and empty, with the file's location. -/
def emptyFile (w : World) (path : Files.Path) : Except Failure (Files.Location × World) :=
  match w.tree.emptyFile path with
  | .ok (place, tree) => .ok (place, { w with tree })
  | .error e => .error (.path e)

/-- The world with a text in the file at a location. -/
def fill (w : World) (place : Files.Location) (content : String) : World :=
  { w with tree := w.tree.put place (.file content) }

/-- The world with a text in a file, whatever the file held before. -/
def writeFile (w : World) (path : Files.Path) (content : String) : Except Failure World :=
  (w.emptyFile path).map fun (place, w) => w.fill place content

/-- The world with one more line in the log. -/
def note (w : World) (line : String) : World := { w with log := w.log ++ [line] }

/-- The whole input, which is used up by reading it. Its stream turns every line end into a line
feed, as reading a file does. -/
def readInput (w : World) : String × World :=
  (String.ofList (Text.unifyLineEnds w.input.toList), { w with input := "" })

/-- The world with more output. -/
def print (w : World) (text : String) : World := { w with output := w.output ++ text }

end World

/-- A program run several times in a row; an early end ends them all. -/
def repeatRuns (program : Program) (args : List String) : Nat → World → Ending
  | 0, w => .finished w
  | n + 1, w =>
    match program args w with
    | .finished w => repeatRuns program args n w
    | ending => ending

end WordAutomata.Command
