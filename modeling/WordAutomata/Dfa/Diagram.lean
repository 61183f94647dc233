import WordAutomata.Dfa.Description

/-!
# State diagrams

A state diagram lists states, symbols and arcs. Every pair of a state and a symbol without an arc
becomes a dead transition. The arcs are looked at in order, before anything else is checked: each
must start in a listed state, carry a listed symbol, and be the only one with that start and symbol.
-/
namespace WordAutomata

/-- An arc of a state diagram. An arc to nothing leaves the transition open. -/
structure Arc where
  source : Datum
  symbol : Datum
  target : Datum
deriving DecidableEq

inductive DiagramDefect where
  | unknownSource (state : Datum)
  | unknownSymbol (symbol : Datum)
  | repeatedArc (source symbol : Datum)
  /-- The arcs are fit, but the rest does not describe an automaton. -/
  | description (defect : Defect)
deriving DecidableEq

def DiagramDefect.message : DiagramDefect → String
  | .unknownSource q => q.quoted
  | .unknownSymbol a => a.quoted
  | .repeatedArc q a => "more than one transition from " ++ q.quoted ++ " on " ++ a.quoted
  | .description defect => defect.message

/-- States, symbols and arcs without any promise. -/
structure Diagram where
  states : List Datum
  symbols : List Datum
  arcs : List Arc
  initial : Datum
  finals : List Datum

namespace Diagram

/-- The diagram with the given names for states, symbols and arcs. -/
def ofNames (states symbols : List String) (arcs : List (String × String × String))
    (initial : String) (finals : List String) : Diagram where
  states := states.map .text
  symbols := symbols.map .text
  arcs := arcs.map fun (q, a, r) => ⟨.text q, .text a, .text r⟩
  initial := .text initial
  finals := finals.map .text

/-- The first unfit arc, given the starts and symbols of the arcs before it. -/
def arcDefectAfter? (states symbols : List Datum) (taken : List (Datum × Datum)) :
    List Arc → Option DiagramDefect
  | [] => none
  | arc :: rest =>
    if arc.source ∉ states then some (.unknownSource arc.source)
    else if arc.symbol ∉ symbols then some (.unknownSymbol arc.symbol)
    else if (arc.source, arc.symbol) ∈ taken then some (.repeatedArc arc.source arc.symbol)
    else if arc.target = .null then arcDefectAfter? states symbols taken rest
    else arcDefectAfter? states symbols ((arc.source, arc.symbol) :: taken) rest

def arcDefect? (D : Diagram) : Option DiagramDefect := arcDefectAfter? D.states D.symbols [] D.arcs

/-- The target of the first of some arcs that carries a symbol and leads anywhere. -/
def targetOn (a : String) (arcs : List Arc) : Datum :=
  ((arcs.find? fun arc => arc.symbol = .text a ∧ arc.target ≠ .null).map Arc.target).getD .null

/-- The table row of a state: every symbol has the target of the state's arc, or nothing. -/
def row (D : Diagram) (q : String) : Fields Datum Datum :=
  let arcs := D.arcs.filter fun arc => arc.source = .text q
  (Datum.names D.symbols).map fun a => (.text a, targetOn a arcs)

/-- The description of the automaton with the arcs for transitions. -/
def description (D : Diagram) : Description where
  states := D.states
  symbols := D.symbols
  table := (Datum.names D.states).map fun q => (.text q, D.row q)
  initial := D.initial
  finals := D.finals

def build (D : Diagram) : Except DiagramDefect Dfa :=
  match D.arcDefect? with
  | some defect => .error defect
  | none => D.description.build.mapError .description

end Diagram
end WordAutomata
