import WordAutomata.Dfa.Diagram

/-!
# Languages of binary words

State diagrams for languages over the symbols `0` and `1`.
-/
namespace WordAutomata.Language

def allStrings : Diagram :=
  .ofNames ["q0"] ["0", "1"] [("q0", "0", "q0"), ("q0", "1", "q0")] "q0" ["q0"]

def emptySet : Diagram := .ofNames ["q0"] ["0", "1"] [] "q0" []

/-- The words that repeat `01` any number of times. -/
def repeat01 : Diagram :=
  .ofNames ["q0", "q1"] ["0", "1"] [("q0", "0", "q1"), ("q1", "1", "q0")] "q0" ["q0"]

/-- The words whose first and last symbols are the same, which are those with an even number of
neighbours `01` and `10`. A state remembers the first symbol and whether the last one differs. -/
def evenPairs : Diagram :=
  .ofNames ["q0", "a", "b", "ar", "br"] ["0", "1"]
    [("q0", "0", "a"), ("q0", "1", "b"),
      ("a", "0", "a"), ("a", "1", "ar"), ("ar", "0", "a"), ("ar", "1", "ar"),
      ("b", "1", "b"), ("b", "0", "br"), ("br", "1", "b"), ("br", "0", "br")]
    "q0" ["q0", "a", "b"]

/-- The words with an odd number of ones. -/
def parity : Diagram :=
  .ofNames ["even", "odd"] ["0", "1"]
    [("even", "0", "even"), ("even", "1", "odd"), ("odd", "0", "odd"), ("odd", "1", "even")]
    "even" ["odd"]

/-- The words that begin with a one. -/
def first : Diagram :=
  .ofNames ["q0", "q1"] ["0", "1"] [("q0", "1", "q1"), ("q1", "0", "q1"), ("q1", "1", "q1")]
    "q0" ["q1"]

end WordAutomata.Language
