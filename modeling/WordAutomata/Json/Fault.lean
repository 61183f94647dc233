import WordAutomata.Text.Decimal

/-!
# Syntax errors

A reader that fails says why and hands over the text from the offending place on. The place is shown
as line, column and offset, all in code points; lines end at a line feed.
-/
namespace WordAutomata.Json

/-- Why a text is not a JSON text. -/
inductive Cause where
  | expectedValue
  | expectedName
  | expectedColon
  | expectedComma
  | unterminatedString
  | controlCharacter
  | invalidEscape
  | invalidUnicodeEscape
  | extraData
  | byteOrderMark
deriving DecidableEq, Repr

def Cause.message : Cause → String
  | .expectedValue => "Expecting value"
  | .expectedName => "Expecting property name enclosed in double quotes"
  | .expectedColon => "Expecting ':' delimiter"
  | .expectedComma => "Expecting ',' delimiter"
  | .unterminatedString => "Unterminated string starting at"
  | .controlCharacter => "Invalid control character at"
  | .invalidEscape => "Invalid \\escape"
  | .invalidUnicodeEscape => "Invalid \\uXXXX escape"
  | .extraData => "Extra data"
  | .byteOrderMark => "Unexpected UTF-8 BOM (decode using utf-8-sig)"

/-- A failure of a reader: the cause, and the text from the offending place to the end. -/
structure Fault where
  cause : Cause
  rest : List Char
deriving DecidableEq, Repr

/-- A syntax error and its place. -/
structure SyntaxError where
  cause : Cause
  offset : Nat
  line : Nat
  column : Nat
deriving DecidableEq, Repr

def Fault.locate (text : List Char) (fault : Fault) : SyntaxError :=
  let offset := text.length - fault.rest.length
  let before := text.take offset
  { cause := fault.cause
    offset
    line := before.count '\n' + 1
    column := (before.reverse.takeWhile (· ≠ '\n')).length + 1 }

def SyntaxError.message (e : SyntaxError) : String :=
  e.cause.message ++ ": line " ++ Text.decimal e.line ++ " column " ++ Text.decimal e.column ++
    " (char " ++ Text.decimal e.offset ++ ")"

end WordAutomata.Json
