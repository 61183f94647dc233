import WordAutomata.Dfa.Basic

/-!
# Runs

A run reads a word one symbol at a time. It halts at the end of the word, in acceptance if the state
is final, and halts in rejection at the first symbol that is not in the alphabet or whose transition
is dead. Halting at the end happens as soon as no symbol is left, so a run that has not halted has a
symbol to read, and it takes at most one step for every symbol of the word.
-/
namespace WordAutomata

inductive RejectionReason where
  | invalidSymbol
  | deadTransition
  /-- The whole word was read and the state is not final. -/
  | notAccepting
deriving DecidableEq, Repr

def RejectionReason.name : RejectionReason → String
  | .invalidSymbol => "invalid-symbol"
  | .deadTransition => "dead-transition"
  | .notAccepting => "not-accepting"

def RejectionReason.all : List RejectionReason := [.invalidSymbol, .deadTransition, .notAccepting]

/-- How far a run has come. -/
inductive Configuration where
  /-- The symbol at the position is to be read next. -/
  | running (state : String) (position : Nat)
  | accepted (state : String)
  /-- The position is that of the symbol that caused the rejection, or the length of the word. -/
  | rejected (reason : RejectionReason) (state : String) (position : Nat) (symbol : Option Datum)
deriving DecidableEq, Repr

def Configuration.isHalted : Configuration → Bool
  | .running .. => false
  | _ => true

def Configuration.isAccepted : Configuration → Bool
  | .accepted _ => true
  | _ => false

/-- What reading one symbol leads to. -/
inductive Move where
  | invalid
  | dead
  | into (state : String)
deriving DecidableEq

/-- What reading a symbol in a state leads to. A symbol outside the alphabet is invalid whatever the
state; so is any datum that is not a name, also a list or a record, which cannot be looked up. -/
def Dfa.move (M : Dfa) (q : String) (a : Datum) : Move :=
  match a with
  | .text a =>
    if a ∈ M.alphabet.symbols then
      match M.next? q a with
      | some r => .into r
      | none => .dead
    else .invalid
  | _ => .invalid

structure Run where
  automaton : Dfa
  word : Word
  /-- The states visited so far, the initial one first. -/
  path : List String
  configuration : Configuration

namespace Run

/-- The configuration in a state before a position: it has halted if no symbol is left. -/
def settle (M : Dfa) (w : Word) (q : String) (position : Nat) : Configuration :=
  if position < w.length then .running q position
  else if q ∈ M.finals then .accepted q
  else .rejected .notAccepting q position none

def start (M : Dfa) (w : Word) : Run := ⟨M, w, [M.initial], settle M w M.initial 0⟩

/-- The run after one more symbol. A run that has halted stays as it is. -/
def step (r : Run) : Run :=
  match r.configuration with
  | .running q i =>
    match r.word[i]? with
    | none => { r with configuration := settle r.automaton r.word q i }
    | some a =>
      match r.automaton.move q a with
      | .invalid => { r with configuration := .rejected .invalidSymbol q i (some a) }
      | .dead => { r with configuration := .rejected .deadTransition q i (some a) }
      | .into s => { r with
          path := r.path ++ [s]
          configuration := settle r.automaton r.word s (i + 1) }
  | _ => r

def steps : Nat → Run → Run
  | 0, r => r
  | n + 1, r => steps n r.step

/-- The run at its end: as many steps as the word has symbols always suffice. -/
def finish (r : Run) : Run := steps r.word.length r

end Run

def Dfa.run (M : Dfa) (w : Word) : Configuration := (Run.start M w).finish.configuration

def Dfa.accepts (M : Dfa) (w : Word) : Bool := (M.run w).isAccepted

end WordAutomata
