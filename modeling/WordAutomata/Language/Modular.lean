import WordAutomata.Dfa.Diagram

/-!
# Modular arithmetic

A word such as `3,+,4,*,2,=,4` is an expression, evaluated from left to right modulo a number,
followed by its value. States remember the value so far, and between an operator and its right
operand the operator as well.
-/
namespace WordAutomata.Language

inductive Operator where
  | add
  | sub
  | mul
deriving DecidableEq, Repr

namespace Operator

def all : List Operator := [add, sub, mul]

def symbol : Operator → String
  | add => "+"
  | sub => "-"
  | mul => "*"

def ofSymbol? (a : String) : Option Operator := all.find? fun op => op.symbol = a

/-- The value of an operator on two integers. -/
def apply : Operator → Int → Int → Int
  | add, x, y => x + y
  | sub, x, y => x - y
  | mul, x, y => x * y

end Operator

/-- The state after an expression with a value. -/
def valueState (i : Nat) : String := "n" ++ Text.decimal i

/-- The state after an expression with a value and an operator. -/
def pendingState (i : Nat) (op : Operator) : String := Text.decimal i ++ op.symbol

/-- The state after an expression with a value and the sign of equality. -/
def checkState (i : Nat) : String := "=" ++ Text.decimal i

/-- The value of an operator modulo a number. -/
def applyModulo (modulus : Nat) (op : Operator) (x y : Nat) : Nat :=
  (op.apply x y % modulus).toNat

/-- The arcs of a value and an operator: to the pending state, and from there on every operand. -/
def operatorArcs (modulus i : Nat) (op : Operator) : List (String × String × String) :=
  (valueState i, op.symbol, pendingState i op) ::
    (List.range modulus).map fun x : Nat =>
      (pendingState i op, Text.decimal x, valueState (applyModulo modulus op i x))

/-- The arcs that read a value behind the sign of equality. -/
def checkArcs (i : Nat) : List (String × String × String) :=
  [(valueState i, "=", checkState i), (checkState i, Text.decimal i, "q_final")]

/-- The correct equations modulo a number. With modulus 0 there are no digits. -/
def modular (modulus : Nat) : Diagram :=
  let numbers := List.range modulus
  .ofNames
    ("q0" :: numbers.map valueState ++
      numbers.flatMap (fun i => Operator.all.map (pendingState i)) ++
      numbers.map checkState ++ ["q_final"])
    (numbers.map (fun i : Nat => Text.decimal i) ++ Operator.all.map Operator.symbol ++ ["="])
    (numbers.map (fun i : Nat => ("q0", Text.decimal i, valueState i)) ++
      numbers.flatMap (fun i => Operator.all.flatMap (operatorArcs modulus i)) ++
      numbers.flatMap checkArcs)
    "q0" ["q_final"]

end WordAutomata.Language
