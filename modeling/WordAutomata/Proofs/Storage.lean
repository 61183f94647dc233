import WordAutomata.Proofs.Dfa.Construction
import WordAutomata.Proofs.Json.RoundTrip

/-!
# Stored automata are read back

The datum of a document has the document's shape, and repeats no name if the table of the document
repeats none. The document of an automaton is a legal description of that automaton and of no
other.
-/
namespace WordAutomata

namespace Document

/-! ## Shapes -/

theorem readRow_rowData (q : String) (row : Fields String (Option String)) :
    readRow q (rowData row) = .ok row := by
  induction row with
  | nil => rfl
  | cons entry row ih =>
    obtain ⟨a, target⟩ := entry
    cases target with
    | none =>
      show (readRow q (rowData row)).map ((a, none) :: ·) = .ok ((a, none) :: row)
      rw [ih]
      rfl
    | some r =>
      show (readRow q (rowData row)).map ((a, some r) :: ·) = .ok ((a, some r) :: row)
      rw [ih]
      rfl

theorem readRows_rowData (table : TransitionTable) :
    readRows (table.map fun row => (row.1, .record (rowData row.2))) = .ok table := by
  induction table with
  | nil => rfl
  | cons row table ih =>
    rw [List.map_cons, readRows, readRow_rowData, ih]
    rfl

theorem readNames?_namesDatum (names : List String) :
    readNames? (namesDatum names) = some names := by
  show (names.map Datum.text).mapM Datum.asText? = some names
  induction names with
  | nil => rfl
  | cons name names ih =>
    rw [List.map_cons, List.mapM_cons, ih]
    rfl

theorem names_fields (doc : Document) : doc.fields.names = fieldNames := rfl

/-- A stored document has the right shape and all its parts. -/
theorem ofDatum_toDatum (doc : Document) : ofDatum doc.toDatum = .ok doc := by
  have hmissing : fieldNames.filter (fun name => (doc.fields.get? name).isNone) = [] := by
    rw [List.filter_eq_nil_iff]
    intro name hname
    rw [← names_fields doc, ← Fields.isSome_get?_iff] at hname
    simp [Option.isSome_iff_ne_none.1 hname]
  have hunknown : ((Names.ofList doc.fields.names).filter fun name =>
      !fieldNames.contains name).toList = [] := by
    rw [names_fields]
    decide
  have htable : readTable doc.fields = .ok doc.table := readRows_rowData doc.table
  have hinitial : readInitial doc.fields = .ok doc.initial := rfl
  have hnames : ∀ field names, doc.fields.get? field = some (namesDatum names) →
      readNames doc.fields field = .ok names := by
    intro field names h
    rw [readNames, h, Option.bind_some, readNames?_namesDatum]
  have hstates := hnames "states" doc.states rfl
  have hsymbols := hnames "alphabet" doc.symbols rfl
  have hfinals := hnames "finalStates" doc.finals rfl
  simp only [toDatum, ofDatum, hmissing, hunknown, htable, hinitial, hstates, hsymbols, hfinals]
  rfl

/-! ## Names that are not repeated -/

theorem plainItems_texts (names : List String) : Datum.PlainItems (names.map .text) := by
  induction names with
  | nil => trivial
  | cons name names ih => exact ⟨trivial, ih⟩

theorem plainFields_rowData (row : Fields String (Option String)) :
    Datum.PlainFields (rowData row) := by
  induction row with
  | nil => trivial
  | cons entry row ih =>
    refine ⟨?_, ih⟩
    cases entry.2 <;> trivial

theorem names_rowData (row : Fields String (Option String)) :
    Fields.names (rowData row) = row.names := by
  simp [rowData, Fields.names, Function.comp_def]

theorem nodup_fieldNames : fieldNames.Nodup := by decide

theorem plainFields_rows {table : TransitionTable} (h : ∀ row ∈ table, row.2.names.Nodup) :
    Datum.PlainFields (table.map fun row => (row.1, .record (rowData row.2))) := by
  induction table with
  | nil => trivial
  | cons row table ih =>
    refine ⟨⟨?_, plainFields_rowData row.2⟩, ih fun r hr => h r (List.mem_cons_of_mem _ hr)⟩
    rw [names_rowData]
    exact h row List.mem_cons_self

theorem names_rows (table : TransitionTable) :
    Fields.names (table.map fun row => (row.1, Datum.record (rowData row.2))) = table.names := by
  simp [Fields.names, Function.comp_def]

/-- A stored document repeats no name if its table repeats none. -/
theorem plain_toDatum {doc : Document} (hrows : doc.table.names.Nodup)
    (hentries : ∀ row ∈ doc.table, row.2.names.Nodup) : doc.toDatum.Plain := by
  refine ⟨nodup_fieldNames, plainItems_texts _, plainItems_texts _, ⟨?_, plainFields_rows hentries⟩,
    trivial, plainItems_texts _, trivial⟩
  rw [names_rows]
  exact hrows

/-! ## The document of an automaton -/

/-- The row of a state in what the document of an automaton describes. -/
def givenRow (M : Dfa) (q : String) : Fields Datum Datum :=
  M.alphabet.toList.map fun a => (.text a, targetDatum (M.next? q a))

theorem names_givenRow (M : Dfa) (q : String) :
    (givenRow M q).names = M.alphabet.toList.map .text := by
  simp [givenRow, Fields.names, Function.comp_def]

theorem get?_givenRow {M : Dfa} {a : String} (ha : a ∈ M.alphabet.symbols) (q : String) :
    (givenRow M q).get? (.text a) = some (targetDatum (M.next? q a)) := by
  have h := Fields.get?_map Datum.text_injective targetDatum
    (M.alphabet.toList.map fun a => (a, M.next? q a)) a
  rw [Fields.get?_map_pair, if_pos (show a ∈ M.alphabet.toList from ha), List.map_map] at h
  exact h

theorem names_ofDfa_table (M : Dfa) :
    (ofDfa M).description.table.names = M.states.toList.map .text := by
  rw [← M.states_names]
  simp [description, ofDfa, Fields.names, Function.comp_def]

theorem get?_ofDfa_table {M : Dfa} {q : String} (hq : q ∈ M.states) :
    (ofDfa M).description.table.get? (.text q) = some (givenRow M q) := by
  have h := Fields.get?_map Datum.text_injective
    (fun row : Fields String (Option String) =>
      row.map fun entry => (Datum.text entry.1, targetDatum entry.2)) M.table q
  rw [M.get?_table q, if_pos hq, Option.map_some, List.map_map] at h
  exact h

theorem ofDfa_legal (M : Dfa) : (ofDfa M).description.Legal where
  state_named := by
    intro q hq
    obtain ⟨s, hs, rfl⟩ := List.mem_map.1 hq
    exact ⟨s, rfl, M.state_ne_empty s hs⟩
  states_nodup := Datum.nodup_map_text M.states.nodup
  symbols_ne_nil := by
    intro h
    exact M.alphabet.symbols_ne_nil (List.map_eq_nil_iff.1 h)
  symbol_named := by
    intro a ha
    obtain ⟨s, hs, rfl⟩ := List.mem_map.1 ha
    exact ⟨s, rfl, M.alphabet.symbol_ne_empty s hs, M.alphabet.comma_not_mem s hs⟩
  symbols_nodup := Datum.nodup_map_text M.alphabet.symbols.nodup
  rows := by
    intro q
    rw [names_ofDfa_table]
    rfl
  entries := by
    intro q hq row hrow a
    obtain ⟨s, hs, rfl⟩ := List.mem_map.1 hq
    rw [get?_ofDfa_table hs] at hrow
    cases hrow
    rw [names_givenRow]
    rfl
  targets := by
    intro q hq row hrow a ha target htarget
    obtain ⟨s, hs, rfl⟩ := List.mem_map.1 hq
    obtain ⟨b, hb, rfl⟩ := List.mem_map.1 ha
    rw [get?_ofDfa_table hs] at hrow
    cases hrow
    rw [get?_givenRow hb] at htarget
    cases htarget
    cases hnext : M.next? s b with
    | none => exact .inl rfl
    | some r => exact .inr (List.mem_map_of_mem (Dfa.next?_mem_states hnext))
  initial := List.mem_map_of_mem M.initial_mem
  finals := by
    intro q hq
    obtain ⟨s, hs, rfl⟩ := List.mem_map.1 hq
    exact List.mem_map_of_mem (M.final_mem s hs)

theorem ofDfa_describes (M : Dfa) : (ofDfa M).description.Describes M where
  states := .refl _
  symbols := .refl _
  initial := rfl
  finals := by
    intro q
    rw [Dfa.isFinal, Datum.isIn_iff]
    constructor
    · intro hq
      obtain ⟨s, hs, rfl⟩ := List.mem_map.1 hq
      exact ⟨s, rfl, hs⟩
    · rintro ⟨s, rfl, hs⟩
      exact List.mem_map_of_mem hs
  entries := by
    intro q hq a ha
    refine ⟨_, givenRow M q, M.next? q a, (M.get?_table q).trans (if_pos hq), ?_,
      get?_ofDfa_table hq, get?_givenRow ha q⟩
    exact (Fields.get?_map_pair _ _ a).trans (if_pos ha)

/-- The document of an automaton describes that automaton and no other. -/
theorem build_ofDfa (M : Dfa) : (ofDfa M).description.build = .ok M := by
  have hlegal := Description.defect?_eq_none_iff_legal.2 (ofDfa_legal M)
  refine Description.build_eq_ok_iff.2 ⟨hlegal, ?_⟩
  exact (Description.ofFit_describes hlegal).unique (ofDfa_describes M)

/-- The stored datum of an automaton repeats no name. -/
theorem plain_ofDfa (M : Dfa) : (ofDfa M).toDatum.Plain :=
  plain_toDatum M.nodup_rows fun _ h => M.nodup_entries h

end Document

namespace Dfa

theorem toList_write (M : Dfa) : M.write.toList =
    Json.printAt .indented 0 (Document.ofDfa M).toDatum ++ ['\n'] := by
  simp [write, Json.print]

/-- The text of an automaton is read as that automaton. -/
theorem read_write (M : Dfa) : Dfa.read M.write = .ok M := by
  have hread : Json.read M.write = .ok (Document.ofDfa M).toDatum := by
    rw [← String.ofList_toList (s := M.write), toList_write]
    have hline : ∀ c ∈ ['\n'], Json.isSpace c = true := List.forall_mem_singleton.2 rfl
    exact Json.read_printAt Json.blank_indented (Document.plain_ofDfa M) 0 hline
  rw [read, hread]
  simp only [Document.ofDatum_toDatum, Document.build_ofDfa]
  rfl

/-- The text of an automaton holds nothing but printable characters and line feeds. -/
theorem forall_mem_write {P : Char → Prop} (hprintable : ∀ c, Json.Printable c → P c)
    (hline : P '\n') (M : Dfa) : ∀ c ∈ M.write.toList, P c := by
  have hlayout : Json.Layout.indented.All P := Json.all_indented hline (hprintable ' ' (by decide))
  have hall := Json.all_printAt hlayout hprintable (Document.ofDfa M).toDatum 0
    (Document.plain_ofDfa M)
  rw [toList_write, List.forall_mem_append]
  exact ⟨hall, List.forall_mem_singleton.2 hline⟩

theorem ascii_write (M : Dfa) : ∀ c ∈ M.write.toList, c.toNat < 128 := by
  refine forall_mem_write (fun c hc => ?_) (by decide) M
  have hle : c.toNat ≤ '~'.toNat := hc.2
  exact Nat.lt_of_le_of_lt hle (by decide)

theorem return_not_mem_write (M : Dfa) : '\r' ∉ M.write.toList := by
  intro hmem
  refine forall_mem_write (P := (· ≠ '\r')) ?_ (by decide) M _ hmem rfl
  rintro c hc rfl
  exact absurd hc (by decide)

/-- One line feed stands behind the closing brace. -/
theorem exists_write_eq (M : Dfa) : ∃ body, M.write.toList = body ++ ['\x7d', '\n'] := by
  rw [toList_write, Document.toDatum, Document.fields, Json.printAt, List.append_assoc]
  exact ⟨_, rfl⟩

end Dfa

/-- Reading the text of an automaton gives that automaton, with the same states, symbols, entries,
initial and final states, and writing it again gives the same text. The text is ASCII, and one line
feed stands behind its closing brace. -/
theorem Dfa.text_restores_automaton (M : Dfa) :
    Dfa.read M.write = .ok M ∧ (∀ c ∈ M.write.toList, c.toNat < 128) ∧
      (∃ body, M.write.toList = body ++ ['\x7d', '\n']) ∧
      (Dfa.read M.write).map Dfa.write = .ok M.write := by
  refine ⟨M.read_write, M.ascii_write, M.exists_write_eq, ?_⟩
  rw [M.read_write]
  rfl

end WordAutomata
