import WordAutomata.Json.Printer
import WordAutomata.Json.Reader
import WordAutomata.Produced
import WordAutomata.Text.Blank
import WordAutomata.Text.Lines

/-!
# One JSON text on every line

A datum is written as one line. Reading skips blank lines, but counts them, and stops at the first
line that is not a JSON text; the data of the lines before it have been produced by then.
-/
namespace WordAutomata.Json

/-- A line that is not a JSON text. Lines are counted from one. -/
structure LineError where
  line : Nat
  error : SyntaxError
deriving DecidableEq

def LineError.message (e : LineError) : String :=
  "line " ++ Text.decimal e.line ++ ": invalid JSON: " ++ e.error.message

def writeLine (d : Datum) : String := print .compact d ++ "\n"

/-- The data of lines of which the first has the given number. -/
def readLinesFrom (number : Nat) : List (List Char) → Produced LineError Datum
  | [] => .done
  | line :: rest =>
    if line.all Text.isBlank then readLinesFrom (number + 1) rest
    else
      match read (String.ofList line) with
      | .error e => .fail ⟨number, e⟩
      | .ok d => (readLinesFrom (number + 1) rest).before [d]

/-- The data of a text's lines. -/
def readLines (text : String) : Produced LineError Datum :=
  readLinesFrom 1 (Text.rawLines text.toList)

end WordAutomata.Json
