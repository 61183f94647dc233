import WordAutomata.Proofs.Except
import WordAutomata.Proofs.Storage

/-!
# Which data have the shape of a document

The checks of a datum's shape are restated one field at a time as equations for what stands in the
record. Together they say that a document is read exactly from a record with the five fields, in any
order, each of which holds the part of the document in its stored form.
-/
namespace WordAutomata

namespace Document

/-- The rows of a table as a record of records. -/
def rowsData (table : TransitionTable) : Fields String Datum :=
  table.map fun row => (row.1, .record (rowData row.2))

/-- Some fields are those of a document: no field is missing, no other one is there, and each holds
its part of the document. -/
structure Fills (fields : Fields String Datum) (doc : Document) : Prop where
  names : ∀ name, name ∈ fields.names ↔ name ∈ fieldNames
  states : fields.get? "states" = some (namesDatum doc.states)
  symbols : fields.get? "alphabet" = some (namesDatum doc.symbols)
  table : fields.get? "delta" = some (.record (rowsData doc.table))
  initial : fields.get? "initialState" = some (.text doc.initial)
  finals : fields.get? "finalStates" = some (namesDatum doc.finals)

/-- A datum has the shape of a document: it is a record of its fields. -/
def StoredAs (doc : Document) (d : Datum) : Prop := ∃ fields, d = .record fields ∧ Fills fields doc

/-! ## One field at a time -/

theorem readRow_eq_ok_iff {q : String} {data : Fields String Datum}
    {row : Fields String (Option String)} : readRow q data = .ok row ↔ data = rowData row := by
  constructor
  · intro h
    fun_induction readRow q data generalizing row with
    | case1 =>
      cases h
      rfl
    | case2 a rest ih =>
      obtain ⟨entries, hrest, rfl⟩ := map_eq_ok_iff.1 h
      rw [ih hrest]
      rfl
    | case3 a r rest ih =>
      obtain ⟨entries, hrest, rfl⟩ := map_eq_ok_iff.1 h
      rw [ih hrest]
      rfl
    | case4 => cases h
  · rintro rfl
    exact readRow_rowData q row

theorem readRows_eq_ok_iff {data : Fields String Datum} {table : TransitionTable} :
    readRows data = .ok table ↔ data = rowsData table := by
  constructor
  · intro h
    fun_induction readRows data generalizing table with
    | case1 =>
      cases h
      rfl
    | case2 => cases h
    | case3 q given rest row hrow ih =>
      obtain ⟨rows, hrest, rfl⟩ := map_eq_ok_iff.1 h
      rw [ih hrest, readRow_eq_ok_iff.1 hrow]
      rfl
    | case4 => cases h
  · rintro rfl
    exact readRows_rowData table

theorem mapM_asText?_eq_some {items : List Datum} {names : List String}
    (h : items.mapM Datum.asText? = some names) : items = names.map .text := by
  induction items generalizing names with
  | nil =>
    cases h
    rfl
  | cons item items ih =>
    rw [List.mapM_cons] at h
    obtain ⟨name, hname, h⟩ := Option.bind_eq_some_iff.1 h
    obtain ⟨rest, hrest, h⟩ := Option.bind_eq_some_iff.1 h
    cases h
    rw [Datum.asText?_eq_some_iff.1 hname, ih hrest]
    rfl

theorem readNames?_eq_some_iff {d : Datum} {names : List String} :
    readNames? d = some names ↔ d = namesDatum names := by
  constructor
  · intro h
    cases d with
    | list items => rw [mapM_asText?_eq_some h, namesDatum]
    | _ => cases h
  · rintro rfl
    exact readNames?_namesDatum names

variable {fields : Fields String Datum} {field : String}

theorem readNames_eq_ok_iff {names : List String} :
    readNames fields field = .ok names ↔ fields.get? field = some (namesDatum names) := by
  have hfound : (fields.get? field).bind readNames? = some names ↔
      fields.get? field = some (namesDatum names) := by
    simp [Option.bind_eq_some_iff, readNames?_eq_some_iff]
  rw [readNames, ← hfound]
  cases (fields.get? field).bind readNames? <;> simp

theorem readTable_eq_ok_iff {table : TransitionTable} :
    readTable fields = .ok table ↔ fields.get? "delta" = some (.record (rowsData table)) := by
  unfold readTable
  split
  · rename_i rows h
    simp [h, readRows_eq_ok_iff]
  · rename_i h
    simp only [reduceCtorEq, false_iff]
    exact h _

theorem readInitial_eq_ok_iff {q : String} :
    readInitial fields = .ok q ↔ fields.get? "initialState" = some (.text q) := by
  have hfound : (fields.get? "initialState").bind Datum.asText? = some q ↔
      fields.get? "initialState" = some (.text q) := by
    simp [Option.bind_eq_some_iff, Datum.asText?_eq_some_iff]
  rw [readInitial, ← hfound]
  cases (fields.get? "initialState").bind Datum.asText? <;> simp

/-! ## The names of the fields -/

/-- The fields of a document that are not there. -/
def missingFields (fields : Fields String Datum) : List String :=
  fieldNames.filter fun name => (Fields.get? fields name).isNone

/-- The fields that no document has. -/
def unknownFields (fields : Fields String Datum) : List String :=
  ((Names.ofList fields.names).filter fun name => !fieldNames.contains name).toList

theorem missingFields_eq_nil_iff :
    missingFields fields = [] ↔ ∀ name ∈ fieldNames, name ∈ fields.names := by
  simp [missingFields, List.filter_eq_nil_iff, ← Fields.isSome_get?_iff, Option.isSome_iff_ne_none]

theorem unknownFields_eq_nil_iff :
    unknownFields fields = [] ↔ ∀ name ∈ fields.names, name ∈ fieldNames := by
  rw [unknownFields, List.eq_nil_iff_forall_not_mem]
  refine forall_congr' fun name => ?_
  rw [← Names.mem_def, Names.mem_filter, Names.mem_ofList]
  simp

/-- The steps of reading a record: no field may be missing, none may be unknown, and then one part
is read after the other. -/
theorem ofDatum_record (fields : Fields String Datum) : ofDatum (.record fields) =
    if missingFields fields ≠ [] then .error (.missingFields (missingFields fields))
    else if unknownFields fields ≠ [] then .error (.unknownFields (unknownFields fields))
    else do
      let table ← readTable fields
      let initial ← readInitial fields
      let states ← readNames fields "states"
      let symbols ← readNames fields "alphabet"
      let finals ← readNames fields "finalStates"
      return { states, symbols, table, initial, finals } := by
  by_cases hmissing : missingFields fields = []
  · by_cases hunknown : unknownFields fields = []
    · rw [if_neg (Classical.not_not.2 hmissing), if_neg (Classical.not_not.2 hunknown)]
      rw [missingFields] at hmissing
      rw [unknownFields] at hunknown
      simp only [ofDatum, hmissing, hunknown]
      rfl
    · rw [if_neg (Classical.not_not.2 hmissing), if_pos hunknown]
      rw [missingFields] at hmissing
      simp only [ofDatum, hmissing, ne_eq, not_true, if_false]
      exact if_pos hunknown
  · rw [if_pos hmissing]
    exact if_pos hmissing

/-- A document is read exactly from the data that have its shape. -/
theorem ofDatum_eq_ok_iff {d : Datum} {doc : Document} : ofDatum d = .ok doc ↔ doc.StoredAs d := by
  constructor
  · intro h
    cases d with
    | record fields =>
      rw [ofDatum_record] at h
      split at h
      · cases h
      rename_i hmissing
      split at h
      · cases h
      rename_i hunknown
      obtain ⟨table, htable, h⟩ := bind_eq_ok_iff.1 h
      obtain ⟨initial, hinitial, h⟩ := bind_eq_ok_iff.1 h
      obtain ⟨states, hstates, h⟩ := bind_eq_ok_iff.1 h
      obtain ⟨symbols, hsymbols, h⟩ := bind_eq_ok_iff.1 h
      obtain ⟨finals, hfinals, h⟩ := bind_eq_ok_iff.1 h
      cases h
      refine ⟨fields, rfl, ⟨fun name => ⟨?_, ?_⟩, ?_, ?_, ?_, ?_, ?_⟩⟩
      · exact unknownFields_eq_nil_iff.1 (Classical.not_not.1 hunknown) name
      · exact missingFields_eq_nil_iff.1 (Classical.not_not.1 hmissing) name
      · exact readNames_eq_ok_iff.1 hstates
      · exact readNames_eq_ok_iff.1 hsymbols
      · exact readTable_eq_ok_iff.1 htable
      · exact readInitial_eq_ok_iff.1 hinitial
      · exact readNames_eq_ok_iff.1 hfinals
    | _ => cases h
  · rintro ⟨fields, rfl, h⟩
    have hmissing := missingFields_eq_nil_iff.2 fun name => (h.names name).2
    have hunknown := unknownFields_eq_nil_iff.2 fun name => (h.names name).1
    rw [ofDatum_record, if_neg (Classical.not_not.2 hmissing),
      if_neg (Classical.not_not.2 hunknown), readTable_eq_ok_iff.2 h.table, readInitial_eq_ok_iff.2 h.initial,
      readNames_eq_ok_iff.2 h.states, readNames_eq_ok_iff.2 h.symbols,
      readNames_eq_ok_iff.2 h.finals]
    rfl

end Document
end WordAutomata
