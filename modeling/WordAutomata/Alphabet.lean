import WordAutomata.Word

/-!
# Alphabets

An alphabet is a non-empty set of symbols. A symbol is a non-empty name without the default
delimiter, so that words over an alphabet can be read back from their encoding. Building an alphabet
looks at the given items in order and reports the first one that is unfit.
-/
namespace WordAutomata

inductive AlphabetDefect where
  /-- An item is not a non-empty name. -/
  | emptySymbol
  /-- A symbol contains the default delimiter. -/
  | delimiterInSymbol (symbol : String)
  | repeatedSymbol (symbol : String)
  | noSymbols
deriving DecidableEq, Repr

def AlphabetDefect.message : AlphabetDefect → String
  | .emptySymbol => "symbols must be non-empty strings"
  | .delimiterInSymbol a =>
    "symbol " ++ Text.quoted a ++ " contains the word delimiter " ++ Text.quoted defaultDelimiter
  | .repeatedSymbol a => "duplicate symbol: " ++ Text.quoted a
  | .noSymbols => "the alphabet must contain at least one symbol"

/-- A non-empty set of non-empty names without the default delimiter. -/
structure Alphabet where
  symbols : Names
  symbols_ne_nil : symbols.toList ≠ []
  symbol_ne_empty : ∀ a ∈ symbols, a ≠ ""
  comma_not_mem : ∀ a ∈ symbols, ',' ∉ a.toList
deriving DecidableEq

namespace Alphabet

@[ext] theorem ext {A B : Alphabet} (h : A.symbols = B.symbols) : A = B := by
  cases A; cases B; simp_all

/-- The first unfit item, given the symbols before it. -/
def defectAfter? (seen : List String) : List Datum → Option AlphabetDefect
  | [] => if seen = [] then some .noSymbols else none
  | .text a :: rest =>
    if a = "" then some .emptySymbol
    else if ',' ∈ a.toList then some (.delimiterInSymbol a)
    else if a ∈ seen then some (.repeatedSymbol a)
    else defectAfter? (a :: seen) rest
  | _ :: _ => some .emptySymbol

/-- What is wrong with the items, if anything is. -/
def defect? (items : List Datum) : Option AlphabetDefect := defectAfter? [] items

theorem fit_of_defectAfter?_eq_none {seen : List String} {items : List Datum}
    (h : defectAfter? seen items = none) :
    (seen ≠ [] ∨ items ≠ []) ∧ ∀ d ∈ items, ∃ a, d = .text a ∧ a ≠ "" ∧ ',' ∉ a.toList := by
  fun_induction defectAfter? seen items with
  | case1 => simp at h
  | case2 seen hs => simp [hs]
  | case3 => simp at h
  | case4 => simp at h
  | case5 => simp at h
  | case6 seen a rest ha hc hs ih =>
    refine ⟨.inr (List.cons_ne_nil _ _), ?_⟩
    intro d hd
    rcases List.mem_cons.1 hd with rfl | hd
    · exact ⟨a, rfl, ha, hc⟩
    · exact (ih h).2 d hd
  | case7 => simp at h

/-- The alphabet of items without a defect. -/
def ofFit (items : List Datum) (h : defect? items = none) : Alphabet where
  symbols := .ofList (Datum.names items)
  symbols_ne_nil := by
    have hfit := fit_of_defectAfter?_eq_none h
    obtain ⟨d, hd⟩ := List.exists_mem_of_ne_nil items (by simpa using hfit.1)
    obtain ⟨a, rfl, -⟩ := hfit.2 d hd
    have ha : a ∈ Names.ofList (Datum.names items) := by simpa using hd
    exact List.ne_nil_of_mem ha
  symbol_ne_empty := by
    intro a ha
    obtain ⟨b, hb, hne, -⟩ := (fit_of_defectAfter?_eq_none h).2 (.text a) (by simpa using ha)
    cases hb
    exact hne
  comma_not_mem := by
    intro a ha
    obtain ⟨b, hb, -, hc⟩ := (fit_of_defectAfter?_eq_none h).2 (.text a) (by simpa using ha)
    cases hb
    exact hc

/-- The alphabet of the given items, or the first defect. -/
def ofItems (items : List Datum) : Except AlphabetDefect Alphabet :=
  match h : defect? items with
  | some defect => .error defect
  | none => .ok (ofFit items h)

def toList (A : Alphabet) : List String := A.symbols.toList

def size (A : Alphabet) : Nat := A.symbols.size

/-- Whether a scalar is a symbol. A list or a record, which cannot be looked up, counts as none. -/
def isSymbol (A : Alphabet) (d : Datum) : Bool := d.isIn A.symbols

def isWord (A : Alphabet) (w : Word) : Bool := w.all A.isSymbol

def display (A : Alphabet) : String := "Alphabet([" ++ Text.quotedList A.toList ++ "])"

end Alphabet
end WordAutomata
