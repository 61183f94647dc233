import WordAutomata.Text.Blank
import WordAutomata.Text.Digit

/-!
# Integers in arguments

An integer may be surrounded by blank characters, though not by information separators. It has an
optional sign and decimal digits of any script; single underscores may stand between digits.
-/
namespace WordAutomata.Text

/-- Whether a character may surround an integer. -/
def isPadding (c : Char) : Bool := isBlank c && !isInformationSeparator c

/-- A text without the padding around it. -/
def trimPadding (text : List Char) : List Char :=
  ((text.dropWhile isPadding).reverse.dropWhile isPadding).reverse

/-- The number that digits spell, continued from a number already read; every underscore stands
between two digits. -/
def groupedValueFrom? (number : Nat) : List Char → Option Nat
  | [] => some number
  | '_' :: c :: rest => (digitValue? c).bind fun d => groupedValueFrom? (10 * number + d) rest
  | c :: rest => (digitValue? c).bind fun d => groupedValueFrom? (10 * number + d) rest

/-- The number that a text of digits and underscores between digits spells. -/
def groupedValue? : List Char → Option Nat
  | [] => none
  | c :: rest => (digitValue? c).bind fun d => groupedValueFrom? d rest

/-- The integer that an argument spells. -/
def integer? (text : List Char) : Option Int :=
  match trimPadding text with
  | '-' :: digits => (groupedValue? digits).map fun n => -(n : Int)
  | '+' :: digits => (groupedValue? digits).map fun n => (n : Int)
  | digits => (groupedValue? digits).map fun n => (n : Int)

end WordAutomata.Text
