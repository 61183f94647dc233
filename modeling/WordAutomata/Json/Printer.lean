import WordAutomata.Fields
import WordAutomata.Json.Literal
import WordAutomata.Json.Number

/-!
# Writing JSON texts

A datum is written on one line without spaces, or over several lines with two spaces for every level
of nesting. Both ways use one printer, which is told what stands before an item at a given depth
and what stands between a name and its value. An empty list or record is a pair of brackets.
-/
namespace WordAutomata.Json

/-- The white space of a written text. -/
structure Layout where
  /-- What stands before an item, and before the bracket that closes a list, at a depth. -/
  gap : Nat → List Char
  /-- What stands between a name's colon and its value. -/
  colonGap : List Char

/-- Everything on one line, without spaces. -/
def Layout.compact : Layout := ⟨fun _ => [], []⟩

/-- Every item on a line of its own, indented by two spaces for every level. -/
def Layout.indented : Layout := ⟨fun depth => '\n' :: List.replicate (2 * depth) ' ', [' ']⟩

mutual

/-- The text of a datum at a depth. -/
def printAt (layout : Layout) (depth : Nat) : Datum → List Char
  | .null => "null".toList
  | .bool true => "true".toList
  | .bool false => "false".toList
  | .int i => Text.intDigits i
  | .real x => realChars x
  | .text s => literalChars s.toList
  | .list [] => ['[', ']']
  | .list (item :: items) =>
    '[' :: layout.gap (depth + 1) ++ printAt layout (depth + 1) item ++
      printItems layout (depth + 1) items ++ layout.gap depth ++ [']']
  | .record [] => ['\x7b', '\x7d']
  | .record ((name, value) :: fields) =>
    '\x7b' :: layout.gap (depth + 1) ++ literalChars name.toList ++ ':' :: layout.colonGap ++
      printAt layout (depth + 1) value ++ printFields layout (depth + 1) fields ++
      layout.gap depth ++ ['\x7d']

/-- The items of a list behind the first. -/
def printItems (layout : Layout) (depth : Nat) : List Datum → List Char
  | [] => []
  | item :: items =>
    ',' :: layout.gap depth ++ printAt layout depth item ++ printItems layout depth items

/-- The fields of a record behind the first. -/
def printFields (layout : Layout) (depth : Nat) : List (String × Datum) → List Char
  | [] => []
  | (name, value) :: fields =>
    ',' :: layout.gap depth ++ literalChars name.toList ++ ':' :: layout.colonGap ++
      printAt layout depth value ++ printFields layout depth fields

end

def print (layout : Layout) (d : Datum) : String := String.ofList (printAt layout 0 d)

end WordAutomata.Json
