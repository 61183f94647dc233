import WordAutomata.Text.Hex
import WordAutomata.Text.Printable

/-!
# Quoted names

Messages show a name between quotes. The apostrophe is the quote unless the name contains an
apostrophe and no double quote. The quote and the backslash are escaped by a backslash, line feed,
carriage return and tab have letters of their own, and every other character that is not printable
is written by its code point in two, four or eight hexadecimal digits. Distinct names have distinct
quoted forms.
-/
namespace WordAutomata.Text

/-- The apostrophe. -/
def apostrophe : Char := '\x27'

/-- The double quote. -/
def doubleQuote : Char := '\x22'

/-- The character that encloses a name. -/
def quoteFor (name : List Char) : Char :=
  if name.contains apostrophe && !name.contains doubleQuote then doubleQuote else apostrophe

/-- One character of a quoted name. -/
def quoteChar (quote c : Char) : List Char :=
  if c = quote ∨ c = '\\' then ['\\', c]
  else if c = '\n' then ['\\', 'n']
  else if c = '\r' then ['\\', 'r']
  else if c = '\t' then ['\\', 't']
  else if isPrintable c then [c]
  else if c.toNat < 0x100 then '\\' :: 'x' :: hexDigits 2 c.toNat
  else if c.toNat < 0x10000 then '\\' :: 'u' :: hexDigits 4 c.toNat
  else '\\' :: 'U' :: hexDigits 8 c.toNat

/-- A name between quotes, as characters. -/
def quoteChars (name : List Char) : List Char :=
  quoteFor name :: name.flatMap (quoteChar (quoteFor name)) ++ [quoteFor name]

/-- A name between quotes. -/
def quoted (name : String) : String := String.ofList (quoteChars name.toList)

/-- Quoted names separated by a comma and a space. -/
def quotedList (names : List String) : String := ", ".intercalate (names.map quoted)

end WordAutomata.Text
