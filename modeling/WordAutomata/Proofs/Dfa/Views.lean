import WordAutomata.Proofs.Dfa.Drawing
import WordAutomata.Proofs.Storage

/-!
# Views of a transition table

An automaton that is built keeps the rows of its states in increasing order, each with its entries
in the order in which they were given. Looking up a state and a symbol, walking over the kept table,
listing the transitions and writing the automaton down are four readings of that table. The last two
sort rows and entries as pairs. The values in such pairs have no order, so a sort that came upon two
equal names would fail. No name is repeated, so none does, and all readings show the same entries.
-/
namespace WordAutomata
namespace Fields

variable {α : Type}

/-- A field put at its place among fields in increasing order. Fields of one name could only be
told apart by their values, which have no order, so comparing two of them fails. -/
def place? (field : String × α) : Fields String α → Option (Fields String α)
  | [] => some [field]
  | other :: rest =>
    if field.1 = other.1 then none
    else if field.1 < other.1 then some (field :: other :: rest)
    else (place? field rest).map (other :: ·)

/-- The fields in increasing order of names, unless two fields of one name had to be compared. -/
def sorted? : Fields String α → Option (Fields String α)
  | [] => some []
  | field :: rest => (sorted? rest).bind (place? field)

variable {field : String × α} {fields placed : Fields String α}

theorem perm_of_place? (h : place? field fields = some placed) : placed.Perm (field :: fields) := by
  induction fields generalizing placed with
  | nil => exact .of_eq (Option.some.inj h).symm
  | cons other rest ih =>
    unfold place? at h
    split at h
    · cases h
    · split at h
      · exact .of_eq (Option.some.inj h).symm
      · obtain ⟨others, hothers, rfl⟩ := Option.map_eq_some_iff.1 h
        exact ((ih hothers).cons other).trans (.swap field other rest)

theorem increasing_of_place? (h : place? field fields = some placed)
    (hi : fields.names.Pairwise (· < ·)) : placed.names.Pairwise (· < ·) := by
  -- Behind the first field stand its followers and the placed one, which is greater than it.
  induction fields generalizing placed with
  | nil =>
    cases h
    exact List.pairwise_singleton _ _
  | cons other rest ih =>
    obtain ⟨hother, hrest⟩ := List.pairwise_cons.1 hi
    unfold place? at h
    split at h
    · cases h
    · rename_i hne
      split at h
      · rename_i hlt
        cases h
        refine List.pairwise_cons.2 ⟨?_, hi⟩
        intro name hname
        rcases List.mem_cons.1 hname with rfl | hname
        · exact hlt
        · exact String.lt_trans hlt (hother name hname)
      · rename_i hnlt
        obtain ⟨others, hothers, rfl⟩ := Option.map_eq_some_iff.1 h
        refine List.pairwise_cons.2 ⟨?_, ih hothers hrest⟩
        intro name hname
        have hnames : (others.map Prod.fst).Perm (field.1 :: rest.map Prod.fst) :=
          (perm_of_place? hothers).map Prod.fst
        rcases List.mem_cons.1 (hnames.mem_iff.1 hname) with rfl | hname
        · rcases Std.lt_trichotomy field.1 other.1 with hlt | heq | hlt
          · exact absurd hlt hnlt
          · exact absurd heq hne
          · exact hlt
        · exact hother name hname

/-- A field with a new name finds its place. -/
theorem exists_place? (h : field.1 ∉ fields.names) :
    ∃ placed, place? field fields = some placed := by
  induction fields with
  | nil => exact ⟨[field], rfl⟩
  | cons other rest ih =>
    obtain ⟨hne, hrest⟩ := not_or.1 (mt List.mem_cons.2 h)
    obtain ⟨others, hothers⟩ := ih hrest
    unfold place?
    rw [if_neg hne]
    split
    · exact ⟨_, rfl⟩
    · exact ⟨other :: others, by rw [hothers]; rfl⟩

theorem perm_and_increasing_of_sorted? {sorted : Fields String α}
    (h : fields.sorted? = some sorted) :
    sorted.Perm fields ∧ sorted.names.Pairwise (· < ·) := by
  induction fields generalizing sorted with
  | nil =>
    cases h
    exact ⟨.refl _, .nil⟩
  | cons field rest ih =>
    obtain ⟨others, hothers, hplace⟩ := Option.bind_eq_some_iff.1 h
    obtain ⟨hperm, hincreasing⟩ := ih hothers
    exact ⟨(perm_of_place? hplace).trans (hperm.cons field),
      increasing_of_place? hplace hincreasing⟩

/-- Fields without a repeated name can be sorted. -/
theorem exists_sorted? (h : fields.names.Nodup) : ∃ sorted, fields.sorted? = some sorted := by
  induction fields with
  | nil => exact ⟨[], rfl⟩
  | cons field rest ih =>
    obtain ⟨hfresh, hrest⟩ := List.nodup_cons.1 h
    obtain ⟨others, hothers⟩ := ih hrest
    have hnames : (names others).Perm (names rest) :=
      (perm_and_increasing_of_sorted? hothers).1.map Prod.fst
    obtain ⟨placed, hplaced⟩ := exists_place? (mt hnames.mem_iff.1 hfresh)
    exact ⟨placed, by rw [sorted?, hothers, Option.bind_some, hplaced]⟩

/-- Fields have one arrangement in increasing order, and sorting finds it exactly if no two of them
share a name. -/
theorem sorted?_eq_some_iff {sorted : Fields String α} : fields.sorted? = some sorted ↔
    sorted.Perm fields ∧ sorted.names.Pairwise (· < ·) := by
  constructor
  · exact perm_and_increasing_of_sorted?
  · intro hsorted
    obtain ⟨hperm, hincreasing⟩ := hsorted
    have hnames : sorted.names.Perm fields.names := hperm.map Prod.fst
    have hnodup : sorted.names.Nodup := Names.nodup_of_increasing hincreasing
    obtain ⟨found, hfound⟩ := exists_sorted? (hnames.nodup_iff.1 hnodup)
    obtain ⟨hperm', hincreasing'⟩ := perm_and_increasing_of_sorted? hfound
    have heq : found = sorted := by
      refine (hperm'.trans hperm.symm).eq_of_pairwise ?_ (List.pairwise_map.1 hincreasing')
        (List.pairwise_map.1 hincreasing)
      intro x y _ _ hxy hyx
      exact absurd hyx (String.lt_asymm hxy)
    exact heq ▸ hfound

end Fields

namespace TransitionTable

/-- The entries of a table, each with its state and its symbol. -/
def cells (table : TransitionTable) : List ((String × String) × Option String) :=
  table.flatMap fun row => row.2.map fun entry => ((row.1, entry.1), entry.2)

/-- The table with its rows and the entries of every row in increasing order, unless two rows or two
entries of one name had to be compared. -/
def sorted? (table : TransitionTable) : Option TransitionTable :=
  (Fields.sorted? table).bind fun rows =>
    rows.mapM fun row => (Fields.sorted? row.2).map fun entries => (row.1, entries)

/-- The transitions that are not dead, from a table that is sorted before it is read. -/
def listing? (table : TransitionTable) : Option (List Transition) :=
  table.sorted?.map fun rows =>
    rows.flatMap fun row => row.2.filterMap fun entry => entry.2.map (⟨row.1, entry.1, ·⟩)

theorem mem_cells {table : TransitionTable} {q a : String} {target : Option String} :
    ((q, a), target) ∈ table.cells ↔ ∃ row ∈ table, row.1 = q ∧ (a, target) ∈ row.2 := by
  simp only [cells, List.mem_flatMap, List.mem_map]
  constructor
  · intro hmem
    obtain ⟨row, hrow, entry, hentry, he⟩ := hmem
    cases he
    exact ⟨row, hrow, rfl, hentry⟩
  · intro hcell
    obtain ⟨row, hrow, rfl, hentry⟩ := hcell
    exact ⟨row, hrow, (a, target), hentry, rfl⟩

/-- Where no row and no entry of a row repeats a name, no pair of a state and a symbol has two
entries. -/
theorem nodup_cells {table : TransitionTable} (hrows : table.names.Nodup)
    (hentries : ∀ row ∈ table, row.2.names.Nodup) : (table.cells.map Prod.fst).Nodup := by
  rw [cells, List.map_flatMap, List.nodup_flatMap]
  constructor
  · intro row hrow
    rw [List.map_map]
    refine List.pairwise_map.2 ((List.pairwise_map.1 (hentries row hrow)).imp ?_)
    intro entry entry' hne he
    exact hne (congrArg Prod.snd he)
  · refine (List.pairwise_map.1 hrows).imp ?_
    intro row row' hne key hkey hkey'
    simp only [List.map_map, List.mem_map, Function.comp_apply] at hkey hkey'
    obtain ⟨entry, -, rfl⟩ := hkey
    obtain ⟨entry', -, he⟩ := hkey'
    exact hne (congrArg Prod.fst he).symm

end TransitionTable

/-! ## Tables that an automaton keeps -/

/-- A table has the rows of an automaton's states and the entries of its symbols, in any order. -/
structure Dfa.Keeps (M : Dfa) (table : TransitionTable) : Prop where
  rows : table.names.Perm M.states.toList
  entries : ∀ row ∈ table, row.2.Perm (M.alphabet.toList.map fun a => (a, M.next? row.1 a))

/-- The table that is kept when a description is built: the rows of the states in increasing order,
each with its entries as they were given. -/
def Description.kept (d : Description) : TransitionTable :=
  d.stateSet.toList.map fun q =>
    (q, (d.row q).map fun entry => (entry.1.asText?.getD "", entry.2.asText?))

namespace Dfa

theorem keeps_table (M : Dfa) : M.Keeps M.table where
  rows := .of_eq M.states_names
  entries := by
    intro row hrow
    rw [table_eq_tabulate] at hrow
    exact .of_eq (TransitionTable.tabulate_row hrow).2

namespace Keeps

variable {M : Dfa} {table : TransitionTable} (h : M.Keeps table)
include h

theorem names_entries {row : String × Fields String (Option String)} (hrow : row ∈ table) :
    row.2.names.Perm M.alphabet.toList := by
  have hperm := (h.entries row hrow).map Prod.fst
  rw [List.map_map] at hperm
  exact hperm.trans (.of_eq (List.map_id _))

theorem nodup_rows : table.names.Nodup := h.rows.nodup_iff.2 M.states.nodup

theorem nodup_entries {row : String × Fields String (Option String)} (hrow : row ∈ table) :
    row.2.names.Nodup :=
  (h.names_entries hrow).nodup_iff.2 M.alphabet.symbols.nodup

/-- The row of a state holds the automaton's target for every symbol and nothing else. -/
theorem mem_cells_iff {q a : String} {target : Option String} :
    ((q, a), target) ∈ table.cells ↔ M.next (.text q) (.text a) = .ok target := by
  rw [TransitionTable.mem_cells, next_eq_ok_iff]
  constructor
  · intro hcell
    obtain ⟨row, hrow, rfl, hentry⟩ := hcell
    have hq : row.1 ∈ M.states := h.rows.mem_iff.1 (List.mem_map_of_mem hrow)
    obtain ⟨b, hb, he⟩ := List.mem_map.1 ((h.entries row hrow).mem_iff.1 hentry)
    cases he
    exact ⟨hq, hb, rfl⟩
  · intro hnext
    obtain ⟨hq, ha, rfl⟩ := hnext
    obtain ⟨row, hrow, rfl⟩ := List.mem_map.1 (h.rows.mem_iff.2 hq)
    exact ⟨row, hrow, rfl, (h.entries row hrow).mem_iff.2 (List.mem_map_of_mem ha)⟩

/-- Looking up a row and in it an entry misses neither. -/
theorem get?_entry {q a : String} (hq : q ∈ M.states) (ha : a ∈ M.alphabet.symbols) :
    ∃ row, table.get? q = some row ∧ row.get? a = some (M.next? q a) := by
  obtain ⟨row, hrow⟩ := Fields.exists_get?_of_mem_names (h.rows.mem_iff.2 hq)
  have hmem := Fields.mem_of_get?_eq_some hrow
  refine ⟨row, hrow, Fields.get?_eq_some_of_mem (h.nodup_entries hmem) ?_⟩
  exact (h.entries _ hmem).mem_iff.2 (List.mem_map_of_mem ha)

/-- The entries of a row are sorted without comparing two of one name. -/
theorem sorted?_entries {row : String × Fields String (Option String)} (hrow : row ∈ table) :
    Fields.sorted? row.2 = some (M.alphabet.toList.map fun a => (a, M.next? row.1 a)) := by
  refine Fields.sorted?_eq_some_iff.2 ⟨(h.entries row hrow).symm, ?_⟩
  rw [Fields.names, List.map_map]
  exact List.pairwise_map.2 M.alphabet.symbols.increasing

/-- A kept table is sorted without comparing two rows or two entries of one name, and comes out as
the automaton's own. -/
theorem sorted?_eq : table.sorted? = some M.table := by
  -- The rows come out under the states in order, and then each of them is sorted by itself.
  obtain ⟨rows, hrows⟩ := Fields.exists_sorted? h.nodup_rows
  obtain ⟨hperm, hincreasing⟩ := Fields.sorted?_eq_some_iff.1 hrows
  have hnames : rows.names = M.states.toList := by
    have hstates : rows.names.Perm M.states.toList := (hperm.map Prod.fst).trans h.rows
    have hset : (⟨rows.names, hincreasing⟩ : Names) = M.states :=
      Names.eq_of_mem_iff fun q => hstates.mem_iff
    exact congrArg Names.toList hset
  have hentries : ∀ row ∈ rows,
      (Fields.sorted? row.2).map (fun entries => (row.1, entries)) =
        some (row.1, M.alphabet.toList.map fun a => (a, M.next? row.1 a)) := by
    intro row hrow
    rw [h.sorted?_entries (hperm.mem_iff.1 hrow), Option.map_some]
  rw [TransitionTable.sorted?, hrows, Option.bind_some, mapM_eq_some_map hentries,
    M.table_eq_tabulate, TransitionTable.tabulate, ← hnames, Fields.names, List.map_map]
  rfl

theorem listing?_eq : table.listing? = some M.transitions := by
  rw [TransitionTable.listing?, h.sorted?_eq]
  rfl

end Keeps
end Dfa

namespace Description

variable {d : Description}

theorem Legal.mem_row (h : d.Legal) {q : String} (hq : q ∈ d.stateSet) (a : Datum) :
    a ∈ (d.row q).names ↔ a ∈ d.symbols := by
  obtain ⟨row, hrow⟩ := h.exists_row hq
  rw [row_eq hrow]
  exact h.entries _ (mem_stateSet.1 hq) row hrow a

/-- The entries of a state's row are the given targets of the symbols, in some order. -/
theorem Legal.kept_row_perm (h : d.Legal) (hrows : ∀ row ∈ d.table, row.2.names.Nodup) {q : String}
    (hq : q ∈ d.stateSet) :
    ((d.row q).map fun entry => (entry.1.asText?.getD "", entry.2.asText?)).Perm
      (d.symbolSet.toList.map fun a => (a, d.target? q a)) := by
  have hnodup : (d.row q).names.Nodup := by
    obtain ⟨row, hrow⟩ := h.exists_row hq
    rw [row_eq hrow]
    exact hrows _ (Fields.mem_of_get?_eq_some hrow)
  obtain ⟨symbols, hsymbols⟩ := Datum.exists_map_text fun a ha =>
    (h.symbol_named a ((h.mem_row hq a).1 ha)).imp fun _ => And.left
  have hperm : symbols.Perm d.symbolSet.toList := by
    rw [hsymbols] at hnodup
    refine (List.perm_ext_iff_of_nodup hnodup.of_map (Names.nodup _)).2 fun a => ?_
    rw [← Names.mem_def, mem_symbolSet, ← h.mem_row hq, hsymbols]
    exact Datum.mem_map_text.symm
  have hrow : d.row q = symbols.map fun a => (.text a, d.entry q a) := by
    have htabulated : d.row q =
        (d.row q).names.map fun a => (a, ((d.row q).get? a).getD .null) := by
      refine Fields.eq_map_pair fun field hf => ?_
      rw [Fields.get?_eq_some_of_mem hnodup hf, Option.getD_some]
    rw [hsymbols, List.map_map] at htabulated
    exact htabulated
  rw [hrow, List.map_map]
  exact hperm.map _

/-- The table that is kept when a description is built is that of the automaton. -/
theorem keeps_kept {M : Dfa} (hrows : ∀ row ∈ d.table, row.2.names.Nodup) (h : d.build = .ok M) :
    M.Keeps d.kept := by
  obtain ⟨hfit, rfl⟩ := build_eq_ok_iff.1 h
  have hlegal := defect?_eq_none_iff_legal.1 hfit
  constructor
  · exact .of_eq (by simp [kept, Fields.names, Function.comp_def, ofFit])
  · intro row hrow
    obtain ⟨q, hq, rfl⟩ := List.mem_map.1 hrow
    refine (hlegal.kept_row_perm hrows hq).trans (.of_eq (List.map_congr_left fun a ha => ?_))
    have htarget : (d.ofFit hfit).next? q a = d.target? q a := by
      have hget : (d.ofFit hfit).table.get? q =
          some (d.symbolSet.toList.map fun a => (a, d.target? q a)) :=
        (Fields.get?_map_pair d.stateSet.toList _ q).trans (if_pos hq)
      rw [Dfa.next?, hget, Option.bind_some, Fields.get?_map_pair, if_pos ha]
      rfl
    rw [htarget]

end Description

/-! ## What the views show -/

/-- All readings of a table that an automaton keeps show the same entries. -/
structure Dfa.Views (M : Dfa) (table : TransitionTable) : Prop where
  /-- What is no state is reported, whatever is read there. -/
  unknown_state : ∀ (q : String) (a : Datum),
    M.next (.text q) a = .error (.unknownState (.text q)) ↔ q ∉ M.states
  unknown_symbol : ∀ q a : String,
    M.next (.text q) (.text a) = .error (.unknownSymbol (.text a)) ↔
      q ∈ M.states ∧ a ∉ M.alphabet.symbols
  known : ∀ q a : String, (∃ target, M.next (.text q) (.text a) = .ok target) ↔
    q ∈ M.states ∧ a ∈ M.alphabet.symbols
  target : ∀ q a r : String, M.next (.text q) (.text a) = .ok (some r) → r ∈ M.states
  /-- The look-up of a known pair finds a row and in it an entry. -/
  found : ∀ q a : String, ∀ target, M.next (.text q) (.text a) = .ok target →
    ∃ row, table.get? q = some row ∧ row.get? a = some target
  /-- The table has an entry for a pair exactly if the look-up of the pair gives it. -/
  cells : ∀ q a target,
    ((q, a), target) ∈ table.cells ↔ M.next (.text q) (.text a) = .ok target
  cells_once : (table.cells.map Prod.fst).Nodup
  rows_nodup : table.names.Nodup
  entries_nodup : ∀ row ∈ table, row.2.names.Nodup
  listed : table.listing? = some M.transitions
  transitions : ∀ q a r,
    ⟨q, a, r⟩ ∈ M.transitions ↔ M.next (.text q) (.text a) = .ok (some r)
  transitions_once : (M.transitions.map fun t => (t.source, t.symbol)).Nodup
  transitions_increasing : M.transitions.Pairwise Transition.Before
  written : table.sorted? = some (Document.ofDfa M).table
  written_cells : (Document.ofDfa M).table.cells.Perm table.cells
  written_states : (Document.ofDfa M).table.names.Pairwise (· < ·)
  written_symbols : ∀ row ∈ (Document.ofDfa M).table, row.2.names.Pairwise (· < ·)

namespace Dfa

variable {M : Dfa} {table : TransitionTable}

theorem next_eq_unknownState_iff {q : String} {a : Datum} :
    M.next (.text q) a = .error (.unknownState (.text q)) ↔ q ∉ M.states := by
  by_cases hq : q ∈ M.states
  · cases a with
    | text a => by_cases ha : a ∈ M.alphabet.symbols <;> simp [next, hq, ha]
    | _ => simp [next, hq]
  · cases a <;> simp [next, hq]

theorem next_eq_unknownSymbol_iff {q a : String} :
    M.next (.text q) (.text a) = .error (.unknownSymbol (.text a)) ↔
      q ∈ M.states ∧ a ∉ M.alphabet.symbols := by
  by_cases hq : q ∈ M.states
  · by_cases ha : a ∈ M.alphabet.symbols <;> simp [next, hq, ha]
  · simp [next, hq]

theorem mem_transitions_iff {q a r : String} :
    ⟨q, a, r⟩ ∈ M.transitions ↔ M.next (.text q) (.text a) = .ok (some r) := by
  rw [next_eq_ok_iff]
  exact ⟨mem_transitions, fun h => mem_transitions_of_next? h.2.2⟩

/-- The readings of a table that an automaton keeps agree. -/
theorem Keeps.views (h : M.Keeps table) : M.Views table where
  unknown_state := fun _ _ => next_eq_unknownState_iff
  unknown_symbol := fun _ _ => next_eq_unknownSymbol_iff
  known := by
    intro q a
    simp only [next_eq_ok_iff]
    exact ⟨fun ⟨_, hq, ha, _⟩ => ⟨hq, ha⟩, fun ⟨hq, ha⟩ => ⟨_, hq, ha, rfl⟩⟩
  target := fun _ _ _ hnext => next?_mem_states (next_eq_ok_iff.1 hnext).2.2
  found := by
    intro q a target hnext
    obtain ⟨hq, ha, rfl⟩ := next_eq_ok_iff.1 hnext
    exact h.get?_entry hq ha
  cells := fun _ _ _ => h.mem_cells_iff
  cells_once := TransitionTable.nodup_cells h.nodup_rows fun _ => h.nodup_entries
  rows_nodup := h.nodup_rows
  entries_nodup := fun _ => h.nodup_entries
  listed := h.listing?_eq
  transitions := fun _ _ _ => mem_transitions_iff
  transitions_once := by
    have hkeys := M.nodup_transitions_keys
    rw [List.map_map] at hkeys
    exact hkeys
  transitions_increasing := M.transitions_increasing
  written := h.sorted?_eq
  written_cells := by
    have hown : (M.table.cells.map Prod.fst).Nodup :=
      TransitionTable.nodup_cells M.nodup_rows fun _ => M.nodup_entries
    have hkept : (table.cells.map Prod.fst).Nodup :=
      TransitionTable.nodup_cells h.nodup_rows fun _ => h.nodup_entries
    refine (List.perm_ext_iff_of_nodup hown.of_map hkept.of_map).2 fun cell => ?_
    exact M.keeps_table.mem_cells_iff.trans h.mem_cells_iff.symm
  written_states := by
    show M.table.names.Pairwise (· < ·)
    rw [M.states_names]
    exact M.states.increasing
  written_symbols := by
    intro row hrow
    have hsymbols : row.2.names = M.alphabet.toList := M.row_symbols row hrow
    rw [hsymbols]
    exact M.alphabet.symbols.increasing

end Dfa

namespace Description

/-- All views of the table of an automaton that is built agree: those of the table in increasing
order and those of the rows as they were given, which like any mapping repeat no name. -/
theorem views_of_built_agree (d : Description) (M : Dfa)
    (hrows : ∀ row ∈ d.table, row.2.names.Nodup) (hM : d.build = .ok M) :
    M.Views M.table ∧ M.Views d.kept :=
  ⟨M.keeps_table.views, (keeps_kept hrows hM).views⟩

/-- The states, the rows and the entries of every row are given in decreasing order. -/
def decreasing : Description where
  states := [.text "q", .text "p"]
  symbols := [.text "1", .text "0"]
  table := [(.text "q", [(.text "1", .text "p"), (.text "0", .null)]),
    (.text "p", [(.text "1", .text "q"), (.text "0", .text "p")])]
  initial := .text "q"
  finals := [.text "p"]

theorem views_of_decreasing_agree :
    (∀ row ∈ decreasing.table, row.2.names.Nodup) ∧
    decreasing.kept = [("p", [("1", some "q"), ("0", some "p")]),
      ("q", [("1", some "p"), ("0", none)])] ∧
    ∃ M, decreasing.build = .ok M ∧
      M.transitions = [⟨"p", "0", "p"⟩, ⟨"p", "1", "q"⟩, ⟨"q", "1", "p"⟩] ∧
      M.Views M.table ∧ M.Views decreasing.kept := by
  have hrows : ∀ row ∈ decreasing.table, row.2.names.Nodup := by decide
  obtain ⟨M, hM, hlisted⟩ : ∃ M, decreasing.build = .ok M ∧
      M.transitions = [⟨"p", "0", "p"⟩, ⟨"p", "1", "q"⟩, ⟨"q", "1", "p"⟩] := ⟨_, rfl, by decide⟩
  exact ⟨hrows, by decide, M, hM, hlisted, views_of_built_agree decreasing M hrows hM⟩

end Description
end WordAutomata
