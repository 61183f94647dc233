import WordAutomata.Dfa.Basic

/-!
# Numbered automata

For labelling many words at once an automaton is encoded by numbers. States and symbols are numbered
in increasing order. One more state, the sink, is absorbing and not accepting: dead transitions lead
to it. One more symbol stands for everything outside the alphabet and leads to the sink as well.
Words are padded to one width and read column by column; a word that has ended keeps its state.
-/
namespace WordAutomata

structure NumberedDfa where
  states : List String
  symbols : List String
  /-- A row for every state and the sink, with an entry for every symbol and the invalid one. -/
  table : List (List Nat)
  /-- Which states accept, the sink last. -/
  accepting : List Bool
  initial : Nat
deriving DecidableEq

/-- Words of symbol numbers, padded to one width, with the number of entries of each that count. -/
structure Batch where
  width : Nat
  rows : List (List Nat)
  lengths : List Int
deriving DecidableEq

/-- Rows and lengths of which there are different numbers. -/
structure BatchMismatch where
  rows : Nat
  lengths : Nat
deriving DecidableEq

def BatchMismatch.message (e : BatchMismatch) : String :=
  "The size of tensor a (" ++ Text.decimal e.lengths ++ ") must match the size of tensor b (" ++
    Text.decimal e.rows ++ ") at non-singleton dimension 0"

namespace NumberedDfa

def sink (T : NumberedDfa) : Nat := T.states.length

/-- The number that stands for every symbol outside the alphabet. -/
def invalidSymbol (T : NumberedDfa) : Nat := T.symbols.length

/-- The numbers of a row's targets, the sink for a dead transition and for the invalid symbol. -/
def numberedRow (states : Names) (row : Fields String (Option String)) : List Nat :=
  row.map (fun entry => (entry.2.bind states.index?).getD states.size) ++ [states.size]

def ofDfa (M : Dfa) : NumberedDfa where
  states := M.states.toList
  symbols := M.alphabet.toList
  table := M.table.map (fun row => numberedRow M.states row.2) ++
    [List.replicate (M.alphabet.size + 1) M.size]
  accepting := M.states.toList.map (fun q => decide (q ∈ M.finals)) ++ [false]
  initial := (M.states.index? M.initial).getD M.size

def encodeSymbol (T : NumberedDfa) : Datum → Nat
  | .text a => (T.symbols.idxOf? a).getD T.invalidSymbol
  | _ => T.invalidSymbol

def encodeWord (T : NumberedDfa) (w : Word) : List Nat := w.map T.encodeSymbol

def padTo (width : Nat) (row : List Nat) : List Nat :=
  row ++ List.replicate (width - row.length) 0

/-- The numbers of the words, padded with zeros to the length of the longest. -/
def encodeWords (T : NumberedDfa) (words : List Word) : Batch :=
  let width := (words.map List.length).foldl max 0
  { width
    rows := words.map fun w => padTo width (T.encodeWord w)
    lengths := words.map fun w => w.length }

def next (T : NumberedDfa) (state symbol : Nat) : Nat :=
  ((T.table[state]?).bind fun row => row[symbol]?).getD T.sink

/-- The states after one more column. Words that have ended keep their state. -/
def advance (T : NumberedDfa) (b : Batch) (column : Nat) (current : List Nat) : List Nat :=
  (current.zip (b.rows.zip b.lengths)).map fun (state, row, length) =>
    if (column : Int) < length then T.next state ((row[column]?).getD 0) else state

/-- A number that counts from the end if it is negative. -/
def fromEnd (count : Nat) (i : Int) : Nat := (if i < 0 then i + count else i).toNat

/-- A list of one member repeated to the given length; any other list must have that length. -/
def spread? {α : Type} (count : Nat) (items : List α) : Option (List α) :=
  match items with
  | [a] => some (List.replicate count a)
  | items => if items.length = count then some items else none

/-- The batch of some rows of one width and some lengths. A negative entry counts from the invalid
symbol backwards. One row is taken with every length, and one length with every row; otherwise there
must be a length for every row. Rows without entries need no lengths. -/
def batch (T : NumberedDfa) (rows : List (List Int)) (lengths : List Int) :
    Except BatchMismatch Batch :=
  let width := (rows.head?.map List.length).getD 0
  let numbered := rows.map fun row => row.map (fromEnd (T.invalidSymbol + 1))
  let count := if rows.length = 1 then lengths.length else rows.length
  if width = 0 then .ok ⟨0, numbered, rows.map fun _ => 0⟩
  else match spread? count numbered, spread? count lengths with
    | some rows, some lengths => .ok ⟨width, rows, lengths⟩
    | _, _ => .error ⟨rows.length, lengths.length⟩

def runBatch (T : NumberedDfa) (b : Batch) : List Nat :=
  (List.range b.width).foldl (fun current column => T.advance b column current)
    (b.rows.map fun _ => T.initial)

def accepts (T : NumberedDfa) (words : List Word) : List Bool :=
  (T.runBatch (T.encodeWords words)).map fun state => (T.accepting[state]?).getD false

end NumberedDfa
end WordAutomata
