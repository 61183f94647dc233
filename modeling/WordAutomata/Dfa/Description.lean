import WordAutomata.Dfa.Basic
import WordAutomata.Dfa.Defect

/-!
# Descriptions of automata

A description lists states, symbols, table rows, an initial state and final states without any
promise. It is checked by eight rules in a fixed order. A description that breaks none is an
automaton; otherwise the defect reported is canonical: past the scans of states and symbols it does
not depend on the order in which anything was listed.
-/
namespace WordAutomata

/-- The unchecked parts of an automaton. -/
structure Description where
  states : List Datum
  symbols : List Datum
  table : Fields Datum (Fields Datum Datum)
  initial : Datum
  finals : List Datum

namespace Description

/-- The first item that is not a non-empty name or that repeats an earlier state. -/
def stateDefectAfter? (seen : List String) : List Datum → Option Defect
  | [] => none
  | .text q :: rest =>
    if q = "" then some .emptyState
    else if q ∈ seen then some (.repeatedState q)
    else stateDefectAfter? (q :: seen) rest
  | _ :: _ => some .emptyState

def stateSet (d : Description) : Names := .ofList (Datum.names d.states)

def symbolSet (d : Description) : Names := .ofList (Datum.names d.symbols)

/-- The row of a state, empty if there is none. -/
def row (d : Description) (q : String) : Fields Datum Datum := (d.table.get? (.text q)).getD []

/-- The entry for a state and a symbol, nothing if there is none. -/
def entry (d : Description) (q a : String) : Datum := ((d.row q).get? (.text a)).getD .null

/-- Rules 1 and 2: every state is a non-empty name, and none is repeated. -/
def stateDefect? (d : Description) : Option Defect := stateDefectAfter? [] d.states

/-- Rule 3: the symbols form an alphabet. -/
def symbolDefect? (d : Description) : Option Defect := (Alphabet.defect? d.symbols).map .alphabet

/-- The expected names that are missing among the given data and the given data that are not
expected, if there are any. -/
def differences? (expected : Names) (given : List Datum) : Option (Names × List Datum) :=
  let names := Names.ofList (Datum.names given)
  let others := given.filter fun d => d.asText?.isNone
  if others = [] ∧ names = expected then none
  else some (expected.diff names, Datum.listed others (names.diff expected))

/-- There are no differences exactly if the given data are the expected names. -/
theorem differences?_eq_none_iff {expected : Names} {given : List Datum} :
    differences? expected given = none ↔ ∀ d, d ∈ given ↔ d.isIn expected = true := by
  simp only [differences?]
  split
  · rename_i h
    obtain ⟨hothers, hnames⟩ := h
    simp only [List.filter_eq_nil_iff, Option.isNone_iff_eq_none] at hothers
    simp only [true_iff]
    intro d
    rw [← hnames, Datum.isIn_iff]
    constructor
    · intro hd
      obtain ⟨a, ha⟩ := Option.ne_none_iff_exists'.1 (hothers d hd)
      obtain rfl := Datum.asText?_eq_some_iff.1 ha
      exact ⟨a, rfl, by simpa using hd⟩
    · rintro ⟨a, rfl, ha⟩
      simpa using ha
  · rename_i h
    simp only [reduceCtorEq, false_iff]
    intro hall
    refine h ⟨?_, ?_⟩
    · rw [List.filter_eq_nil_iff]
      intro d hd
      obtain ⟨a, rfl, -⟩ := Datum.isIn_iff.1 ((hall d).1 hd)
      simp
    · refine Names.eq_of_mem_iff fun a => ?_
      simp [hall]

/-- Rule 4: the rows of the table are exactly the states. -/
def rowsDefect? (d : Description) : Option Defect :=
  (differences? d.stateSet d.table.names).map fun (missing, extra) =>
    .rowsDiffer missing extra

/-- Rule 5: the entries of every row are exactly the symbols. The least offending state is
reported. -/
def entriesDefect? (d : Description) : Option Defect :=
  let symbols := d.symbolSet
  d.stateSet.toList.findSome? fun q =>
    (differences? symbols (d.row q).names).map fun (missing, extra) =>
      .entriesDiffer q missing extra

/-- Rule 6: every entry is nothing or a state. The least offending state and symbol are reported. -/
def targetDefect? (d : Description) : Option Defect :=
  let states := d.stateSet
  let symbols := d.symbolSet
  states.toList.findSome? fun q => symbols.toList.findSome? fun a =>
    let target := d.entry q a
    if target = .null ∨ target.isIn states then none else some (.unknownTarget q a target)

/-- Rule 7: the initial state is a state. -/
def initialDefect? (d : Description) : Option Defect :=
  if d.initial.isIn d.stateSet then none else some (.unknownInitial d.initial)

def leastQuoted? : List Datum → Option Datum
  | [] => none
  | d :: rest =>
    match leastQuoted? rest with
    | none => some d
    | some e => some (if e.quoted < d.quoted then e else d)

def unknownFinals (d : Description) : List Datum :=
  let states := d.stateSet
  d.finals.filter fun q => !q.isIn states

/-- Rule 8: every final state is a state. The offender with the least quoted form is reported. -/
def finalDefect? (d : Description) : Option Defect :=
  (leastQuoted? d.unknownFinals).map .unknownFinal

/-- The first defect in the order of the rules. A target, an initial or a final state that is a list
or a record counts as unknown, though it cannot be looked up among the states: that such a look-up
fails is not modelled here. -/
def defect? (d : Description) : Option Defect :=
  d.stateDefect?.or <| d.symbolDefect?.or <| d.rowsDefect?.or <| d.entriesDefect?.or <|
    d.targetDefect?.or <| d.initialDefect?.or d.finalDefect?

def target? (d : Description) (q a : String) : Option String := (d.entry q a).asText?

theorem fit_of_stateDefectAfter?_eq_none {seen : List String} {items : List Datum}
    (h : stateDefectAfter? seen items = none) : ∀ d ∈ items, ∃ q, d = .text q ∧ q ≠ "" := by
  fun_induction stateDefectAfter? seen items with
  | case1 => simp
  | case2 => simp at h
  | case3 => simp at h
  | case4 seen q rest hq hs ih =>
    intro d hd
    rcases List.mem_cons.1 hd with rfl | hd
    · exact ⟨q, rfl, hq⟩
    · exact ih h d hd
  | case5 => simp at h

theorem leastQuoted?_eq_none_iff {items : List Datum} : leastQuoted? items = none ↔ items = [] := by
  cases items with
  | nil => simp [leastQuoted?]
  | cons d rest => simp only [leastQuoted?]; split <;> simp

theorem target_mem_of_targetDefect?_eq_none {d : Description} (h : d.targetDefect? = none)
    {q a r : String} (hq : q ∈ d.stateSet) (ha : a ∈ d.symbolSet) (hr : d.target? q a = some r) :
    r ∈ d.stateSet := by
  have hrow := List.findSome?_eq_none_iff.1 (List.findSome?_eq_none_iff.1 h q hq) a ha
  have he : d.entry q a = .text r := Datum.asText?_eq_some_iff.1 hr
  rw [he] at hrow
  simpa using hrow

theorem final_mem_of_finalDefect?_eq_none {d : Description} (h : d.finalDefect? = none)
    {q : String} (hq : .text q ∈ d.finals) : q ∈ d.stateSet := by
  have hnil : d.unknownFinals = [] := by simpa [finalDefect?, leastQuoted?_eq_none_iff] using h
  have hall := List.filter_eq_nil_iff.1 hnil (.text q) hq
  simpa using hall

theorem isIn_of_initialDefect?_eq_none {d : Description} (h : d.initialDefect? = none) :
    d.initial.isIn d.stateSet = true := by
  unfold initialDefect? at h
  split at h
  · assumption
  · simp at h

/-- A description without a defect breaks none of the rules. -/
theorem defect?_eq_none_iff {d : Description} :
    d.defect? = none ↔ d.stateDefect? = none ∧ d.symbolDefect? = none ∧ d.rowsDefect? = none ∧
      d.entriesDefect? = none ∧ d.targetDefect? = none ∧ d.initialDefect? = none ∧
      d.finalDefect? = none := by
  simp [defect?, Option.or_eq_none_iff]

/-- The automaton of a description without a defect. -/
def ofFit (d : Description) (h : d.defect? = none) : Dfa where
  states := d.stateSet
  alphabet := .ofFit d.symbols (by simpa [symbolDefect?] using (defect?_eq_none_iff.1 h).2.1)
  table := .tabulate d.stateSet d.symbolSet d.target?
  initial := d.initial.asText?.getD ""
  finals := .ofList (Datum.names d.finals)
  empty_not_mem := by
    intro hq
    have hstate := fit_of_stateDefectAfter?_eq_none (defect?_eq_none_iff.1 h).1
    obtain ⟨r, hr, hne⟩ := hstate (.text "") (by simpa [stateSet] using hq)
    cases hr
    exact hne rfl
  table_states := TransitionTable.tabulate_states
  row_symbols := fun _ hrow => TransitionTable.tabulate_row_symbols hrow
  target_mem := by
    intro row hrow entry hentry q hq
    obtain ⟨-, -, -, -, htarget, -⟩ := defect?_eq_none_iff.1 h
    have he := TransitionTable.tabulate_entry hrow hentry
    exact target_mem_of_targetDefect?_eq_none htarget (TransitionTable.tabulate_row hrow).1 he.1
      (he.2.symm.trans hq)
  initial_mem := by
    obtain ⟨-, -, -, -, -, hinitial, -⟩ := defect?_eq_none_iff.1 h
    obtain ⟨q, hq, hmem⟩ := Datum.isIn_iff.1 (isIn_of_initialDefect?_eq_none hinitial)
    simpa [hq] using hmem
  final_mem := by
    intro q hq
    obtain ⟨-, -, -, -, -, -, hfinal⟩ := defect?_eq_none_iff.1 h
    exact final_mem_of_finalDefect?_eq_none hfinal (by simpa using hq)

def build (d : Description) : Except Defect Dfa :=
  match h : d.defect? with
  | some defect => .error defect
  | none => .ok (d.ofFit h)

end Description
end WordAutomata
