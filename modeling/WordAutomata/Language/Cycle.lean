import WordAutomata.Dfa.Diagram

/-!
# Walks around a cycle

A walk moves around a cycle of positions that starts at position 0: `>` goes one position on, `<`
one back and `=` stays. A word of the language is a walk followed by the number of the position it
has reached.
-/
namespace WordAutomata.Language

def positionState (i : Nat) : String := "p" ++ Text.decimal i

/-- The arcs of a position. The one that leads on to it comes from the position before it, which is
the last one for position 0. -/
def positionArcs (size i : Nat) : List (String × String × String) :=
  let here := positionState i
  let previous := positionState ((i + size - 1) % size)
  [(previous, ">", here), (here, "<", previous), (here, "=", here),
    (here, Text.decimal i, "qf")]

/-- The walks around a cycle of `size` positions. -/
def cycle (size : Nat) : Diagram :=
  let positions := List.range size
  .ofNames (positions.map positionState ++ ["qf"])
    ("<" :: ">" :: "=" :: positions.map fun i : Nat => Text.decimal i)
    (positions.flatMap (positionArcs size)) (positionState 0) ["qf"]

end WordAutomata.Language
