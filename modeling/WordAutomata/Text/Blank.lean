import WordAutomata.Text.Ranges

/-!
# Blank characters

The blank characters are those with the property White_Space and the four information separators
U+001C to U+001F.
-/
namespace WordAutomata.Text

/-- The ranges of blank code points, in increasing order. -/
def blankRanges : List (Nat × Nat) := [
  (0x9, 0xd), (0x1c, 0x20), (0x85, 0x85), (0xa0, 0xa0), (0x1680, 0x1680), (0x2000, 0x200a),
  (0x2028, 0x2029), (0x202f, 0x202f), (0x205f, 0x205f), (0x3000, 0x3000)]

/-- Whether a character is blank. -/
def isBlank (c : Char) : Bool := inRanges blankRanges c.toNat

/-- Whether a character is one of the information separators, which are blank in a line of text but
may not surround a number. -/
def isInformationSeparator (c : Char) : Bool := 0x1c ≤ c.toNat && c.toNat ≤ 0x1f

end WordAutomata.Text
