import WordAutomata.Datum
import WordAutomata.Text.Delimited

/-!
# Words

A word is a list of symbols. Its textual encoding writes the symbols with a delimiter between them,
a comma unless another one is asked for, and the empty text encodes the empty word. A symbol of a
word can be any scalar; one that is not a name belongs to no alphabet. A list or a record in the
place of a symbol is treated in the same way, though it could not even be looked up.
-/
namespace WordAutomata

abbrev Word := List Datum

/-- The delimiter that separates symbols unless another one is given. -/
def defaultDelimiter : String := ","

/-- Decoding failed because a text that is not empty cannot be cut at an empty delimiter. -/
inductive DecodeError where
  | emptyDelimiter
deriving DecidableEq

def DecodeError.message : DecodeError → String
  | .emptyDelimiter => "empty separator"

namespace Word

def ofNames (names : List String) : Word := names.map .text

/-- The names that a text encodes. The empty text is the empty word before the delimiter is looked
at. -/
def decodeNames (delimiter text : String) : Except DecodeError (List String) :=
  if text.toList = [] then .ok []
  else if hd : delimiter.toList = [] then .error .emptyDelimiter
  else .ok ((Text.split delimiter.toList hd text.toList).map String.ofList)

def decode (delimiter text : String) : Except DecodeError Word :=
  (decodeNames delimiter text).map ofNames

/-- The text that encodes some names. -/
def encode (delimiter : String) (names : List String) : String :=
  String.ofList (Text.join delimiter.toList (names.map String.toList))

/-- The word that a text encodes with commas. -/
def ofText (text : String) : Word :=
  if text.toList = [] then []
  else (Text.split [','] (List.cons_ne_nil _ _) text.toList).map fun piece =>
    .text (String.ofList piece)

/-- The word that a datum denotes: a text its comma-separated symbols, a list its items. -/
def ofDatum? : Datum → Option Word
  | .text s => some (ofText s)
  | .list items => some items
  | _ => none

theorem decode_defaultDelimiter (text : String) :
    decode defaultDelimiter text = .ok (ofText text) := by
  have hd : defaultDelimiter.toList = [','] := rfl
  by_cases ht : text.toList = []
  · simp [decode, decodeNames, ofText, ht, Except.map, ofNames]
  · simp [decode, decodeNames, ofText, ht, hd, Except.map, ofNames]

end Word
end WordAutomata
