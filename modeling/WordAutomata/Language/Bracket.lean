import WordAutomata.Dfa.Diagram

/-!
# Balanced brackets

Words of brackets of several kinds in which every closing bracket matches the innermost open one and
no more than a given number of brackets are open at once. The opening bracket of kind `a` is written
`(a` and the closing one `)a`. A state is the stack of open brackets, the innermost last.
-/
namespace WordAutomata.Language

/-- The opening bracket of a kind. -/
def openBracket (kind : Int) : String := "(" ++ Text.decimal kind

/-- The closing bracket of a kind. -/
def closeBracket (kind : Int) : String := ")" ++ Text.decimal kind

/-- The name of a stack of open brackets. -/
def stackState : List Int → String
  | [] => "<bottom>"
  | stack => " ".intercalate (stack.map openBracket)

/-- The stacks of a height over some number of kinds, in lexicographic order. -/
def stacksOfHeight (kinds : Nat) : Nat → List (List Nat)
  | 0 => [[]]
  | height + 1 =>
    (List.range kinds).flatMap fun a => (stacksOfHeight kinds height).map (a :: ·)

/-- The stacks of at most a height. -/
def stacksUpTo (kinds depth : Nat) : List (List Nat) :=
  (List.range (depth + 1)).flatMap (stacksOfHeight kinds)

/-- The state of a stack of kinds. -/
def kindState (stack : List Nat) : String := stackState (stack.map fun a : Nat => (a : Int))

/-- The arcs that open a bracket, where the depth allows another one. -/
def openArcs (kinds depth : Nat) (stack : List Nat) : List (String × String × String) :=
  if stack.length < depth then
    (List.range kinds).map fun a : Nat => (kindState stack, openBracket a, kindState (stack ++ [a]))
  else []

/-- The arc that closes the innermost bracket, if one is open. -/
def closeArcs (stack : List Nat) : List (String × String × String) :=
  match stack.getLast? with
  | none => []
  | some a => [(kindState stack, closeBracket a, kindState stack.dropLast)]

/-- The balanced words over `kinds` kinds of brackets with at most `depth` open at once. -/
def brackets (kinds depth : Nat) : Diagram :=
  let reachable := stacksUpTo kinds depth
  .ofNames (reachable.map kindState)
    ((List.range kinds).flatMap fun a : Nat => [openBracket a, closeBracket a])
    (reachable.flatMap fun stack => openArcs kinds depth stack ++ closeArcs stack)
    (kindState []) [kindState []]

end WordAutomata.Language
