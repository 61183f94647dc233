import WordAutomata.Alphabet
import WordAutomata.Fields

/-!
# Deterministic automata

An automaton has a set of states, which are non-empty names, an alphabet, a transition table with
one entry for every state and symbol, an initial state and a set of final states. An entry is a
state, or nothing where the transition is dead. The table is kept in increasing order of states and
symbols, so two automata with the same states, symbols, transitions, initial and final states are
equal.
-/
namespace WordAutomata

/-- The entries of a transition table, by state and by symbol. -/
abbrev TransitionTable := Fields String (Fields String (Option String))

/-- The table that has the given target for every state and symbol. -/
def TransitionTable.tabulate (states symbols : Names) (target : String → String → Option String) :
    TransitionTable :=
  states.toList.map fun q => (q, symbols.toList.map fun a => (a, target q a))

namespace TransitionTable

variable {states symbols : Names} {target : String → String → Option String}

theorem tabulate_states : (tabulate states symbols target).map Prod.fst = states.toList := by
  simp [tabulate, Function.comp_def]

theorem tabulate_row {row : String × Fields String (Option String)}
    (h : row ∈ tabulate states symbols target) :
    row.1 ∈ states ∧ row.2 = symbols.toList.map fun a => (a, target row.1 a) := by
  obtain ⟨q, hq, rfl⟩ := List.mem_map.1 h
  exact ⟨hq, rfl⟩

theorem tabulate_row_symbols {row : String × Fields String (Option String)}
    (h : row ∈ tabulate states symbols target) : row.2.map Prod.fst = symbols.toList := by
  simp [(tabulate_row h).2, Function.comp_def]

theorem tabulate_entry {row : String × Fields String (Option String)}
    (h : row ∈ tabulate states symbols target) {entry : String × Option String}
    (he : entry ∈ row.2) : entry.1 ∈ symbols ∧ entry.2 = target row.1 entry.1 := by
  rw [(tabulate_row h).2] at he
  obtain ⟨a, ha, rfl⟩ := List.mem_map.1 he
  exact ⟨ha, rfl⟩

end TransitionTable

structure Dfa where
  states : Names
  alphabet : Alphabet
  table : TransitionTable
  initial : String
  finals : Names
  empty_not_mem : "" ∉ states
  table_states : table.map Prod.fst = states.toList
  row_symbols : ∀ row ∈ table, row.2.map Prod.fst = alphabet.toList
  target_mem : ∀ row ∈ table, ∀ entry ∈ row.2, ∀ q, entry.2 = some q → q ∈ states
  initial_mem : initial ∈ states
  final_mem : ∀ q ∈ finals, q ∈ states
deriving DecidableEq

structure Transition where
  source : String
  symbol : String
  target : String
deriving DecidableEq, Repr

/-- A transition was looked up for something that is not a state or not a symbol. -/
inductive LookupError where
  | unknownState (state : Datum)
  | unknownSymbol (symbol : Datum)
deriving DecidableEq

def LookupError.message : LookupError → String
  | .unknownState q => "invalid state: " ++ q.quoted
  | .unknownSymbol a => "invalid symbol: " ++ a.quoted

namespace Dfa

@[ext] theorem ext {M N : Dfa} (hs : M.states = N.states) (ha : M.alphabet = N.alphabet)
    (ht : M.table = N.table) (hi : M.initial = N.initial) (hf : M.finals = N.finals) : M = N := by
  cases M; cases N; simp_all

def size (M : Dfa) : Nat := M.states.size

theorem state_ne_empty (M : Dfa) : ∀ q ∈ M.states, q ≠ "" := by
  rintro _ hq rfl
  exact M.empty_not_mem hq

def isFinal (M : Dfa) (q : Datum) : Bool := q.isIn M.finals

def next? (M : Dfa) (q a : String) : Option String :=
  ((M.table.get? q).bind fun row => row.get? a).join

/-- The entry of the table for a state and a symbol, both of which are checked, the state first. -/
def next (M : Dfa) (q a : Datum) : Except LookupError (Option String) :=
  match q, a with
  | .text q, .text a =>
    if q ∉ M.states then .error (.unknownState q)
    else if a ∉ M.alphabet.symbols then .error (.unknownSymbol a)
    else .ok (M.next? q a)
  | .text q, a => .error (if q ∈ M.states then .unknownSymbol a else .unknownState q)
  | q, _ => .error (.unknownState q)

/-- The transitions that are not dead, in increasing order of states and then of symbols. -/
def transitions (M : Dfa) : List Transition :=
  M.table.flatMap fun row => row.2.filterMap fun entry => entry.2.map (⟨row.1, entry.1, ·⟩)

def display (M : Dfa) : String :=
  "DFA(num_states=" ++ Text.decimal M.size ++ ", alphabet=" ++ M.alphabet.display ++
    ", initial_state=" ++ Text.quoted M.initial ++ ")"

end Dfa
end WordAutomata
