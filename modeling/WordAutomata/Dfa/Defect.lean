import WordAutomata.Alphabet

/-!
# Defects of a description

The ways in which the description of an automaton can fail to describe one.
-/
namespace WordAutomata

/-- What is wrong with the description of an automaton. -/
inductive Defect where
  /-- A state is not a non-empty name. -/
  | emptyState
  | repeatedState (state : String)
  | alphabet (defect : AlphabetDefect)
  /-- The table's rows are not exactly the states: states without a row, rows without a state. -/
  | rowsDiffer (missing : Names) (extra : List Datum)
  /-- A row's entries are not exactly the symbols. -/
  | entriesDiffer (state : String) (missing : Names) (extra : List Datum)
  | unknownTarget (state symbol : String) (target : Datum)
  | unknownInitial (state : Datum)
  | unknownFinal (state : Datum)
deriving DecidableEq

namespace Defect

/-- The expected names that are missing and the unexpected data, as messages show them. -/
def differences (missing : Names) (extra : List Datum) : String :=
  "(missing: [" ++ Text.quotedList missing.toList ++ "]; extra: [" ++
    Datum.quotedList extra ++ "])"

def message : Defect → String
  | .emptyState => "state identifiers must be non-empty strings"
  | .repeatedState q => "duplicate state: " ++ Text.quoted q
  | .alphabet defect => defect.message
  | .rowsDiffer missing extra =>
    "transitions are not defined for exactly the given states " ++ differences missing extra
  | .entriesDiffer q missing extra =>
    "transitions from state " ++ Text.quoted q ++
      " are not defined for exactly the symbols in the alphabet " ++ differences missing extra
  | .unknownTarget q a target =>
    "transition from " ++ Text.quoted q ++ " on " ++ Text.quoted a ++
      " leads to unknown state " ++ target.quoted
  | .unknownInitial q => "initial state " ++ q.quoted ++ " is not a valid state"
  | .unknownFinal q => "final state " ++ q.quoted ++ " is not a valid state"

end Defect
end WordAutomata
