import WordAutomata.Text.Delimited

/-!
# Paths

A path is a number of leading slashes and the names behind them. Empty names and single dots are
left out when a path is read, a double dot is not: what it leads to depends on the directories that
there are. A path keeps two leading slashes if there are exactly two, and one if there are more.
-/
namespace WordAutomata.Files

/-- A path as it is written. -/
structure Path where
  /-- None, one or two. -/
  slashes : Nat
  names : List String
deriving DecidableEq

namespace Path

/-- The number of leading slashes that a path keeps. -/
def leadingSlashes : List Char → Nat
  | '/' :: '/' :: '/' :: _ => 1
  | '/' :: '/' :: _ => 2
  | '/' :: _ => 1
  | _ => 0

def ofText (text : String) : Path where
  slashes := leadingSlashes text.toList
  names := ((Text.split ['/'] (List.cons_ne_nil _ _) text.toList).map String.ofList).filter
    fun name => name ≠ "" ∧ name ≠ "."

/-- The text of a path. The path without slashes and names is a single dot. -/
def text (p : Path) : String :=
  if p.slashes = 0 ∧ p.names = [] then "."
  else String.ofList (List.replicate p.slashes '/') ++ "/".intercalate p.names

/-- The path of what a path stands in, as far as it is written: its last name is left out. -/
def parent (p : Path) : Path := { p with names := p.names.dropLast }

end Path
end WordAutomata.Files
