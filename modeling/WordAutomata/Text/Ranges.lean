/-!
# Sets of code points

A set of code points is written as an increasing list of closed ranges.
-/
namespace WordAutomata.Text

/-- Whether a code point lies in one of the ranges; the ranges are in increasing order. -/
def inRanges : List (Nat × Nat) → Nat → Bool
  | [], _ => false
  | (first, last) :: rest, n => first ≤ n && (n ≤ last || inRanges rest n)

end WordAutomata.Text
