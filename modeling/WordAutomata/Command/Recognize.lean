import WordAutomata.Command.World
import WordAutomata.Json.Lines
import WordAutomata.Recognition
import WordAutomata.Text.Integer

/-!
# Recognizing the lines of a file

The command takes an automaton from a file or a language by its name, reports on every line of a
file or of the input, and writes the reports to a file or to the output, one JSON record on a line.
The automaton is loaded and the file of lines is found before the file of reports is emptied, but
the lines are read after that: a file that takes the reports as well has no lines.
-/
namespace WordAutomata.Command

/-- Where the automaton comes from. -/
inductive Source where
  | file (path : Setting Files.Path)
  | language (name : Setting String)
deriving DecidableEq

/-- The settings of the command. -/
structure RecognizeSettings where
  source : Option Source
  input : Option (Setting Files.Path)
  output : Option (Setting Files.Path)
  delimiter : Setting String
  batched : Bool
  batchSize : Setting Int
deriving DecidableEq

namespace RecognizeSettings

/-- The settings unless something else is asked for. -/
def default : RecognizeSettings :=
  ⟨none, none, none, .value defaultDelimiter, false, .value 256⟩

/-- The options of the command. -/
def specs : List OptionSpec := [
  ⟨"--automaton", true⟩, ⟨"--language", true⟩, ⟨"--input", true⟩, ⟨"--output", true⟩,
  ⟨"--delimiter", true⟩, ⟨"--batched", false⟩, ⟨"--batch-size", true⟩, ⟨"--device", true⟩]

/-- The settings with a file to take the automaton from, unless a language has been named. -/
def setFile (s : RecognizeSettings) (path : Setting Files.Path) : Option RecognizeSettings :=
  match s.source with
  | some (.language _) => none
  | _ => some { s with source := some (.file path) }

/-- The settings with the name of a language, unless a file has been given. -/
def setLanguage (s : RecognizeSettings) (name : Setting String) : Option RecognizeSettings :=
  match s.source with
  | some (.file _) => none
  | _ => some { s with source := some (.language name) }

/-- The settings after a request. The device that labels batches makes no difference. -/
def set (s : RecognizeSettings) : Request → Option RecognizeSettings
  | .set "--automaton" path => s.setFile (path.map .ofText)
  | .set "--language" name => s.setLanguage name
  | .set "--input" path => some { s with input := some (path.map .ofText) }
  | .set "--output" path => some { s with output := some (path.map .ofText) }
  | .set "--delimiter" delimiter => some { s with delimiter }
  | .set "--batch-size" (.value size) =>
    (Text.integer? size.toList).map fun size => { s with batchSize := .value size }
  | .set "--batch-size" .blank => some { s with batchSize := .blank }
  | .flag "--batched" => some { s with batched := true }
  | _ => some s

/-- How the lines are recognized, blank if the size of a batch is, even if no batches are asked
for. -/
def batching (s : RecognizeSettings) : Setting Batching :=
  s.batchSize.map fun size => if s.batched then .batched size else .each

/-- Whether a batch could not hold a single line. -/
def hasBadBatchSize (s : RecognizeSettings) : Bool := s.batchSize.value?.any (· < 1)

end RecognizeSettings

/-- A complete request to recognize lines. -/
structure RecognizeTask where
  source : Source
  input : Option (Setting Files.Path)
  output : Option (Setting Files.Path)
  delimiter : Setting String
  batching : Setting Batching
deriving DecidableEq

/-- The task that settings describe. A source is required, and a batch must hold a line whether
batches are asked for or not. -/
def RecognizeSettings.task? (s : RecognizeSettings) : Except Exit RecognizeTask :=
  match s.source with
  | none => .error .misuse
  | some source =>
    if s.hasBadBatchSize then .error .misuse
    else .ok ⟨source, s.input, s.output, s.delimiter, s.batching⟩

/-- The task that arguments describe. -/
def recognizeTask (args : List String) : Except Exit RecognizeTask :=
  (readArguments RecognizeSettings.specs RecognizeSettings.set .default args).bind
    RecognizeSettings.task?

/-- The automaton of a source. -/
def Source.load (w : World) : Source → Except Failure Dfa
  | .file path => do
    let path ← path.require .file
    let text ← w.readFile path
    (Dfa.read text).mapError .document
  | .language name => do
    let name ← name.require .name
    (Language.named name).mapError .language

/-- Whether a failure to load the automaton is noted. A blank setting is not, nor that a file cannot
be opened, unless its path cannot be one at all, because it contains the null character. -/
def isNoted : Failure → Bool
  | .blank _ => false
  | .path e => e.fault = .nullCharacter
  | _ => true

/-- The world in which a failure to load the automaton has been noted, if it is. -/
def noteLoadFailure (w : World) (failure : Failure) : World :=
  if isNoted failure then w.note ("could not load automaton: " ++ failure.message) else w

/-- The numbers of states and symbols, as the log shows them. -/
def sizeText (M : Dfa) : String :=
  Text.decimal M.size ++ " states, " ++ Text.decimal M.alphabet.size ++ " symbols"

/-- The text of the lines to recognize, and the world in which it has been taken. -/
def takeLines (task : RecognizeTask) (w : World) : Except Failure (String × World) :=
  match task.input with
  | none => .ok w.readInput
  | some path => do
    let path ← path.require .file
    let text ← w.readFile path
    return (text, w)

/-- The location of the file of reports, if there is to be one, and the world in which it is
empty. -/
def emptyReports (task : RecognizeTask) (w : World) :
    Except Failure (Option Files.Location × World) :=
  match task.output with
  | none => .ok (none, w)
  | some path => do
    let path ← path.require .directory
    let (place, w) ← w.emptyFile path
    return (some place, w)

/-- The text of the lines, where the reports go, and the world in which both are open. The reports
are not touched unless the lines are there. -/
def openTask (task : RecognizeTask) (w : World) :
    Except Failure (String × Option Files.Location × World) := do
  let _ ← takeLines task w
  let (place, w) ← emptyReports task w
  let (text, w) ← takeLines task w
  return (text, place, w)

/-- The world with a text in the file of reports, or behind the output. -/
def writeReports (place : Option Files.Location) (w : World) (text : String) : World :=
  match place with
  | none => w.print text
  | some place => w.fill place text

/-- The text of some reports. -/
def reportText (reports : List Report) : String :=
  String.join (reports.map fun r => Json.writeLine r.toDatum)

/-- The delimiter to decode with. A blank one fails at the same lines as the empty one. -/
def RecognizeTask.delimiterText (task : RecognizeTask) : String := task.delimiter.value?.getD ""

/-- The failure to decode a line, which is that of the delimiter if it is blank. -/
def RecognizeTask.decodeFailure (task : RecognizeTask) (e : DecodeError) : Failure :=
  if task.delimiter = .blank then .blank .delimiter else .decode e

/-- The end of a task whose reports are known. -/
def finishTask (task : RecognizeTask) (place : Option Files.Location) (w : World)
    (produced : Produced DecodeError Report) : Ending :=
  let w := writeReports place w (reportText produced.items)
  match produced.failure with
  | some e => .failed (task.decodeFailure e) w
  | none =>
    let accepted := produced.items.countP fun r => r.accepted
    .finished ((w.note ("words: " ++ Text.decimal produced.items.length)).note
      ("accepted: " ++ Text.decimal accepted))

/-- Recognizes the lines of a task with an automaton. -/
def runTask (task : RecognizeTask) (batching : Batching) (M : Dfa) (w : World) : Ending :=
  match openTask task w with
  | .error failure => .failed failure w
  | .ok (text, place, w) =>
    match M.recognize task.delimiterText batching (Text.lines text) with
    | .error _ => .exited .misuse w
    | .ok produced => finishTask task place w produced

/-- The command that recognizes lines. -/
def recognize : Program := fun args w =>
  match recognizeTask args with
  | .error exit => .exited exit w
  | .ok task =>
    match task.batching.require .batchSize with
    | .error failure => .failed failure w
    | .ok batching =>
      match task.source.load w with
      | .error failure => .failed failure (noteLoadFailure w failure)
      | .ok M => runTask task batching M (w.note ("automaton: " ++ sizeText M))

end WordAutomata.Command
