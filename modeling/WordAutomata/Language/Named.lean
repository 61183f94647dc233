import WordAutomata.Language.Binary
import WordAutomata.Language.Bracket
import WordAutomata.Language.Cycle
import WordAutomata.Language.Modular
import WordAutomata.Text.Digit

/-!
# Languages by name

Eight languages have fixed names. A bracket language is named by the number of kinds and the depth,
both spelled in decimal digits of any script; one line feed may stand behind the name.
-/
namespace WordAutomata

/-- Why there is no automaton for a language. -/
inductive LanguageError where
  /-- A cycle has no position to start in. -/
  | noPositions
  | badBrackets (kinds depth : Int)
  | unknownName (name : String)
  /-- The state diagram of the language is unfit. -/
  | diagram (defect : DiagramDefect)
deriving DecidableEq

def LanguageError.message : LanguageError → String
  | .noPositions => "list index out of range"
  | .badBrackets kinds depth =>
    "invalid Dyck parameters: k=" ++ Text.decimal kinds ++ ", m=" ++ Text.decimal depth
  | .unknownName name => "invalid language name: " ++ name
  | .diagram defect => defect.message

namespace Language

def build (D : Diagram) : Except LanguageError Dfa := D.build.mapError .diagram

/-- The automaton for the walks around a cycle, which needs a position. -/
def cycleAutomaton (size : Int) : Except LanguageError Dfa :=
  if size < 1 then .error .noPositions else build (cycle size.toNat)

/-- The automaton for modular arithmetic. A modulus that is not positive has no digits. -/
def modularAutomaton (modulus : Int) : Except LanguageError Dfa := build (modular modulus.toNat)

/-- The automaton for balanced brackets, which needs a kind of bracket and a depth. -/
def bracketAutomaton (kinds depth : Int) : Except LanguageError Dfa :=
  if kinds < 1 ∨ depth < 0 then .error (.badBrackets kinds depth)
  else build (brackets kinds.toNat depth.toNat)

/-- The number of positions of a cycle, and the modulus, unless another one is given. -/
def defaultSize : Int := 5

/-- The languages with fixed names. -/
def fixed : Fields String (Except LanguageError Dfa) := [
  ("all-strings", build allStrings),
  ("empty-set", build emptySet),
  ("repeat-01", build repeat01),
  ("even-pairs", build evenPairs),
  ("modular-arithmetic-simple", modularAutomaton defaultSize),
  ("parity", build parity),
  ("cycle-navigation", cycleAutomaton defaultSize),
  ("first", build first)]

/-- The names of the languages, and the form of a bracket language's name. -/
def names : List String := fixed.names ++ ["dyck-<k>-<m>"]

/-- A text without the given front, if it begins with that. -/
def without? (front text : List Char) : Option (List Char) :=
  if front.isPrefixOf text then some (text.drop front.length) else none

/-- The number spelled at the front of a text by decimal digits, at least one. -/
def numberAt? (text : List Char) : Option (Nat × List Char) :=
  let isDigit (c : Char) := (Text.digitValue? c).isSome
  (Text.digitsValue? (text.takeWhile isDigit)).map fun n => (n, text.dropWhile isDigit)

/-- The number of kinds and the depth in the name of a bracket language. -/
def bracketParameters? (name : List Char) : Option (Nat × Nat) := do
  let rest ← without? "dyck-".toList name
  let (kinds, rest) ← numberAt? rest
  let rest ← without? ['-'] rest
  let (depth, rest) ← numberAt? rest
  if rest = [] ∨ rest = ['\n'] then some (kinds, depth) else none

def named (name : String) : Except LanguageError Dfa :=
  match Fields.get? fixed name with
  | some automaton => automaton
  | none =>
    match bracketParameters? name.toList with
    | some (kinds, depth) => bracketAutomaton kinds depth
    | none => .error (.unknownName name)

end Language
end WordAutomata
