import WordAutomata.Proofs.Reading

/-!
# What is found wrong with a shape

Each check of a datum's shape is stated by itself, with what it finds wrong. Some of these faults
have a place in the data: the first row of the table that is unfit, and in it the first target. A
datum is read as a document exactly if it has the shape of one, and otherwise the first check in a
fixed order that finds anything decides, whatever the checks behind it would find.
-/
namespace WordAutomata

namespace Document

/-! ## The checks -/

/-- The checks of a datum's shape. -/
inductive Check where
  | record
  | missing
  | unknown
  | table
  | rows
  | initial
  /-- A field lists names. -/
  | names (field : String)
deriving DecidableEq

def Check.inOrder : List Check := [.record, .missing, .unknown, .table, .rows, .initial,
  .names "states", .names "alphabet", .names "finalStates"]

/-- A target as a table may hold it. -/
def IsTarget (d : Datum) : Prop := d = .null ∨ ∃ r, d = .text r

/-- A row as a table may hold it. -/
def IsRow (d : Datum) : Prop := ∃ row, d = .record row ∧ ∀ entry ∈ row, IsTarget entry.2

def ListsNames (d : Datum) : Prop := ∃ items, d = .list items ∧ ∀ item ∈ items, ∃ a, item = .text a

/-- A record has the shape of a document: exactly its fields, each of the right kind. -/
structure HasShape (fields : Fields String Datum) : Prop where
  names : ∀ name, name ∈ fields.names ↔ name ∈ fieldNames
  table : ∃ rows, fields.get? "delta" = some (.record rows) ∧ ∀ row ∈ rows, IsRow row.2
  initial : ∃ q, fields.get? "initialState" = some (.text q)
  lists : ∀ field ∈ ["states", "alphabet", "finalStates"],
    ∃ d, fields.get? field = some d ∧ ListsNames d

/-- What is wrong with the row of a state. Of the targets the first unfit one counts. -/
inductive RowFault (q : String) : Datum → ShapeError → Prop where
  | notRecord {d : Datum} (h : ∀ row, d ≠ .record row) : RowFault q d (.rowNotRecord q)
  | badTarget {before rest : Fields String Datum} {a : String} {target : Datum}
      (hbefore : ∀ entry ∈ before, IsTarget entry.2) (h : ¬ IsTarget target) :
      RowFault q (.record (before ++ (a, target) :: rest)) (.badTarget q a)

/-- What a check by itself finds wrong with a datum. Of the rows the first unfit one counts. -/
inductive Finds : Check → Datum → ShapeError → Prop where
  | record {d : Datum} (h : ∀ fields, d ≠ .record fields) : Finds .record d (.notRecord d.kindName)
  | missing {fields : Fields String Datum} (h : ∃ name ∈ fieldNames, name ∉ fields.names) :
      Finds .missing (.record fields)
        (.missingFields (fieldNames.filter fun name => name ∉ fields.names))
  | unknown {fields : Fields String Datum} {unknown : List String} (hne : unknown ≠ [])
      (horder : unknown.Pairwise (· < ·))
      (hmem : ∀ name, name ∈ unknown ↔ name ∈ fields.names ∧ name ∉ fieldNames) :
      Finds .unknown (.record fields) (.unknownFields unknown)
  | table {fields : Fields String Datum} {d : Datum} (hfield : fields.get? "delta" = some d)
      (h : ∀ rows, d ≠ .record rows) : Finds .table (.record fields) .tableNotRecord
  | rows {fields before rest : Fields String Datum} {q : String} {d : Datum} {e : ShapeError}
      (hfield : fields.get? "delta" = some (.record (before ++ (q, d) :: rest)))
      (hbefore : ∀ row ∈ before, IsRow row.2) (h : RowFault q d e) :
      Finds .rows (.record fields) e
  | initial {fields : Fields String Datum} {d : Datum}
      (hfield : fields.get? "initialState" = some d) (h : ∀ q, d ≠ .text q) :
      Finds .initial (.record fields) .initialNotName
  | names {fields : Fields String Datum} {field : String} {d : Datum}
      (hfield : fields.get? field = some d) (h : ¬ ListsNames d) :
      Finds (.names field) (.record fields) (.notNames field)

/-- What the first of some checks finds that finds anything. -/
def FirstFound (checks : List Check) (d : Datum) (e : ShapeError) : Prop :=
  ∃ before check rest, checks = before ++ check :: rest ∧
    (∀ earlier ∈ before, ∀ e', ¬ Finds earlier d e') ∧ Finds check d e

variable {d : Datum} {e : ShapeError} {check : Check} {checks : List Check} {q a : String}
  {fields : Fields String Datum} {field : String}

theorem not_firstFound_nil : ¬ FirstFound [] d e := by
  intro hfirst
  obtain ⟨before, check, rest, hchecks, -⟩ := hfirst
  cases before <;> cases hchecks

theorem firstFound_cons_iff : FirstFound (check :: checks) d e ↔
    Finds check d e ∨ (∀ e', ¬ Finds check d e') ∧ FirstFound checks d e := by
  constructor
  · intro hfirst
    obtain ⟨before, found, rest, hchecks, hbefore, hfound⟩ := hfirst
    cases before with
    | nil =>
      cases hchecks
      exact .inl hfound
    | cons first before =>
      cases hchecks
      obtain ⟨hfirst, hbefore⟩ := List.forall_mem_cons.1 hbefore
      exact .inr ⟨hfirst, before, found, rest, rfl, hbefore, hfound⟩
  · intro hfirst
    obtain hfound | ⟨hfirst, before, found, rest, rfl, hbefore, hfound⟩ := hfirst
    · exact ⟨[], check, checks, rfl, by simp, hfound⟩
    · exact ⟨check :: before, found, rest, rfl, List.forall_mem_cons.2 ⟨hfirst, hbefore⟩, hfound⟩

/-- A step that fails with what a check finds, and behind it steps that fail with what the first of
the other checks finds. -/
theorem firstFound_iff_bind {α β : Type} {x : Except ShapeError α} {f : α → Except ShapeError β}
    (hx : ∀ e, Finds check d e ↔ x = .error e)
    (hf : ∀ a, x = .ok a → (FirstFound checks d e ↔ f a = .error e)) :
    FirstFound (check :: checks) d e ↔ x >>= f = .error e := by
  rw [firstFound_cons_iff]
  simp only [hx]
  cases x with
  | error e' => simp [bind, Except.bind]
  | ok a =>
    rw [ok_bind, ← hf a rfl]
    simp

/-! ## Rows and targets -/

def readTarget (q a : String) : Datum → Except ShapeError (Option String)
  | .null => .ok none
  | .text r => .ok (some r)
  | _ => .error (.badTarget q a)

/-- The row of a state, if it is a record of targets. -/
def readEntries (q : String) : Datum → Except ShapeError (Fields String (Option String))
  | .record row => readRow q row
  | _ => .error (.rowNotRecord q)

theorem readRow_eq_mapM (q : String) (row : Fields String Datum) : readRow q row =
    row.mapM fun entry => (readTarget q entry.1 entry.2).map (Prod.mk entry.1) := by
  fun_induction readRow q row with
  | case1 => rfl
  | case2 a rest ih =>
    rw [List.mapM_cons, ← ih]
    cases readRow q rest <;> rfl
  | case3 a r rest ih =>
    rw [List.mapM_cons, ← ih]
    cases readRow q rest <;> rfl
  | case4 a target rest hnull htext =>
    rw [List.mapM_cons]
    cases target with
    | null => exact (hnull rfl).elim
    | text r => exact (htext r rfl).elim
    | _ => rfl

theorem readRows_eq_mapM (rows : Fields String Datum) : readRows rows =
    rows.mapM fun row => (readEntries row.1 row.2).map (Prod.mk row.1) := by
  fun_induction readRows rows with
  | case1 => rfl
  | case2 q row rest e hrow =>
    rw [List.mapM_cons]
    show _ = (readRow q row).map (Prod.mk q) >>= _
    rw [hrow]
    rfl
  | case3 q row rest entries hrow ih =>
    rw [List.mapM_cons, ← ih]
    show _ = (readRow q row).map (Prod.mk q) >>= _
    rw [hrow]
    cases readRows rest <;> rfl
  | case4 q row rest hrow =>
    rw [List.mapM_cons]
    cases row with
    | record entries => exact (hrow entries rfl).elim
    | _ => rfl

theorem readTarget_eq_error_iff :
    readTarget q a d = .error e ↔ ¬ IsTarget d ∧ e = .badTarget q a := by
  cases d <;> simp [readTarget, IsTarget, eq_comm]

theorem exists_readTarget_iff : (∃ target, readTarget q a d = .ok target) ↔ IsTarget d := by
  cases d <;> simp [readTarget, IsTarget]

theorem exists_readRow_iff {row : Fields String Datum} :
    (∃ entries, readRow q row = .ok entries) ↔ ∀ entry ∈ row, IsTarget entry.2 := by
  simp only [readRow_eq_mapM, exists_mapM_eq_ok_iff, exists_map_eq_ok_iff, exists_readTarget_iff]

theorem exists_readEntries_iff : (∃ entries, readEntries q d = .ok entries) ↔ IsRow d := by
  cases d with
  | record row => simp [readEntries, exists_readRow_iff, IsRow]
  | _ => simp [readEntries, IsRow]

theorem readEntries_eq_error_iff : readEntries q d = .error e ↔ RowFault q d e := by
  constructor
  · intro h
    cases d with
    | record row =>
      rw [readEntries, readRow_eq_mapM] at h
      obtain ⟨before, ⟨a, target⟩, rest, rfl, hbefore, htarget⟩ := mapM_eq_error_iff.1 h
      obtain ⟨hbad, rfl⟩ := readTarget_eq_error_iff.1 (map_eq_error_iff.1 htarget)
      refine .badTarget ?_ hbad
      intro entry hentry
      exact exists_readTarget_iff.1 (exists_map_eq_ok_iff.1 (hbefore entry hentry))
    | _ =>
      cases h
      exact .notRecord fun row hrow => by cases hrow
  · intro h
    cases h with
    | notRecord hrow =>
      cases d with
      | record row => exact absurd rfl (hrow row)
      | _ => rfl
    | @badTarget before rest a target hbefore hbad =>
      rw [readEntries, readRow_eq_mapM, mapM_eq_error_iff]
      refine ⟨before, (a, target), rest, rfl, ?_, ?_⟩
      · intro entry hentry
        exact exists_map_eq_ok_iff.2 (exists_readTarget_iff.2 (hbefore entry hentry))
      · exact map_eq_error_iff.2 (readTarget_eq_error_iff.2 ⟨hbad, rfl⟩)

theorem exists_readRows_iff {rows : Fields String Datum} :
    (∃ table, readRows rows = .ok table) ↔ ∀ row ∈ rows, IsRow row.2 := by
  simp only [readRows_eq_mapM, exists_mapM_eq_ok_iff, exists_map_eq_ok_iff, exists_readEntries_iff]

/-- Rows are read up to the first unfit one. -/
theorem readRows_eq_error_iff {rows : Fields String Datum} : readRows rows = .error e ↔
    ∃ before q d rest, rows = before ++ (q, d) :: rest ∧ (∀ row ∈ before, IsRow row.2) ∧
      RowFault q d e := by
  simp only [readRows_eq_mapM, mapM_eq_error_iff, exists_map_eq_ok_iff, exists_readEntries_iff,
    map_eq_error_iff, readEntries_eq_error_iff, Prod.exists]

/-! ## One check after the other -/

def recordOf : Datum → Except ShapeError (Fields String Datum)
  | .record fields => .ok fields
  | d => .error (.notRecord d.kindName)

def noneMissing (fields : Fields String Datum) : Except ShapeError Unit :=
  if missingFields fields ≠ [] then .error (.missingFields (missingFields fields)) else .ok ()

def noneUnknown (fields : Fields String Datum) : Except ShapeError Unit :=
  if unknownFields fields ≠ [] then .error (.unknownFields (unknownFields fields)) else .ok ()

def rowsOf (fields : Fields String Datum) : Except ShapeError (Fields String Datum) :=
  match fields.get? "delta" with
  | some (.record rows) => .ok rows
  | _ => .error .tableNotRecord

/-- A datum is read with a step of its own for each check. -/
theorem ofDatum_eq_steps (d : Datum) : ofDatum d = do
    let fields ← recordOf d
    let _ ← noneMissing fields
    let _ ← noneUnknown fields
    let rows ← rowsOf fields
    let table ← readRows rows
    let initial ← readInitial fields
    let states ← readNames fields "states"
    let symbols ← readNames fields "alphabet"
    let finals ← readNames fields "finalStates"
    return { states, symbols, table, initial, finals } := by
  cases d with
  | record fields =>
    have htable : readTable fields = rowsOf fields >>= readRows := by
      rw [readTable, rowsOf]
      cases Fields.get? fields "delta" with
      | none => rfl
      | some d => cases d <;> rfl
    rw [ofDatum_record, recordOf, ok_bind, noneMissing, noneUnknown, htable, bind_assoc]
    split
    · rfl
    split
    · rfl
    rfl
  | _ => rfl

theorem finds_record_iff : Finds .record d e ↔ recordOf d = .error e := by
  constructor
  · intro hfinds
    cases hfinds with
    | record h =>
      cases d with
      | record fields => exact absurd rfl (h fields)
      | _ => rfl
  · intro h
    cases d with
    | record fields => cases h
    | _ =>
      cases h
      exact .record fun fields hfields => by cases hfields

theorem finds_missing_iff : Finds .missing (.record fields) e ↔ noneMissing fields = .error e := by
  have hlist : missingFields fields = fieldNames.filter fun name => name ∉ fields.names := by
    apply List.filter_congr
    intro name _
    rw [Bool.eq_iff_iff, decide_eq_true_iff, ← Fields.isSome_get?_iff]
    simp
  have hne : missingFields fields ≠ [] ↔ ∃ name ∈ fieldNames, name ∉ fields.names := by
    simp [missingFields_eq_nil_iff]
  rw [noneMissing]
  by_cases h : missingFields fields ≠ []
  · rw [if_pos h, Except.error.injEq, hlist]
    constructor
    · intro hfinds
      cases hfinds
      rfl
    · intro hok
      obtain rfl := hok
      exact .missing (hne.1 h)
  · rw [if_neg h]
    constructor
    · intro hfinds
      cases hfinds with
      | missing hmissing => exact absurd (hne.2 hmissing) h
    · intro hok
      cases hok

theorem mem_unknownFields {name : String} :
    name ∈ unknownFields fields ↔ name ∈ fields.names ∧ name ∉ fieldNames := by
  rw [unknownFields, ← Names.mem_def, Names.mem_filter, Names.mem_ofList]
  simp

/-- The unknown fields are one list only, since they are in increasing order. -/
theorem finds_unknown_iff : Finds .unknown (.record fields) e ↔ noneUnknown fields = .error e := by
  rw [noneUnknown]
  constructor
  · intro hfinds
    cases hfinds with
    | @unknown _ unknown hne horder hmem =>
      have hnames : (⟨unknown, horder⟩ : Names) =
          (Names.ofList fields.names).filter fun name => !fieldNames.contains name :=
        Names.eq_of_mem_iff fun name => (hmem name).trans mem_unknownFields.symm
      have hlist : unknown = unknownFields fields := congrArg Names.toList hnames
      rw [← hlist, if_pos hne]
  · intro h
    split at h
    · rename_i hne
      cases h
      exact .unknown hne (Names.increasing _) fun name => mem_unknownFields
    · cases h

theorem finds_table_iff (hfield : "delta" ∈ fields.names) :
    Finds .table (.record fields) e ↔ rowsOf fields = .error e := by
  obtain ⟨d, hd⟩ := Fields.exists_get?_of_mem_names hfield
  rw [rowsOf, hd]
  constructor
  · intro hfinds
    cases hfinds with
    | table hfound h =>
      rw [hd] at hfound
      cases hfound
      cases d with
      | record rows => exact absurd rfl (h rows)
      | _ => rfl
  · intro h
    cases d with
    | record rows => cases h
    | _ =>
      cases h
      exact .table hd fun rows hrows => by cases hrows

theorem rowsOf_eq_ok_iff {rows : Fields String Datum} :
    rowsOf fields = .ok rows ↔ fields.get? "delta" = some (.record rows) := by
  rw [rowsOf]
  split
  · rename_i h
    simp [h]
  · rename_i h
    simp only [reduceCtorEq, false_iff]
    exact h _

theorem finds_rows_iff {rows : Fields String Datum} (hrows : rowsOf fields = .ok rows) :
    Finds .rows (.record fields) e ↔ readRows rows = .error e := by
  have hdelta := rowsOf_eq_ok_iff.1 hrows
  rw [readRows_eq_error_iff]
  constructor
  · intro hfinds
    cases hfinds with
    | @rows _ before rest q d _ hfound hbefore h =>
      rw [hdelta] at hfound
      cases hfound
      exact ⟨before, q, d, rest, rfl, hbefore, h⟩
  · intro hfirst
    obtain ⟨before, q, d, rest, rfl, hbefore, h⟩ := hfirst
    exact .rows hdelta hbefore h

theorem finds_initial_iff (hfield : "initialState" ∈ fields.names) :
    Finds .initial (.record fields) e ↔ readInitial fields = .error e := by
  obtain ⟨d, hd⟩ := Fields.exists_get?_of_mem_names hfield
  rw [readInitial, hd, Option.bind_some]
  constructor
  · intro hfinds
    cases hfinds with
    | initial hfound h =>
      rw [hd] at hfound
      cases hfound
      cases d with
      | text q => exact absurd rfl (h q)
      | _ => rfl
  · intro h
    cases d with
    | text q => cases h
    | _ =>
      cases h
      exact .initial hd fun q hq => by cases hq

theorem listsNames_iff : ListsNames d ↔ ∃ names, readNames? d = some names := by
  simp only [readNames?_eq_some_iff]
  constructor
  · intro hlists
    obtain ⟨items, rfl, hitems⟩ := hlists
    obtain ⟨names, rfl⟩ := Datum.exists_map_text hitems
    exact ⟨names, rfl⟩
  · intro hnames
    obtain ⟨names, rfl⟩ := hnames
    refine ⟨_, rfl, ?_⟩
    intro item hitem
    obtain ⟨a, -, rfl⟩ := List.mem_map.1 hitem
    exact ⟨a, rfl⟩

theorem finds_names_iff (hfield : field ∈ fields.names) :
    Finds (.names field) (.record fields) e ↔ readNames fields field = .error e := by
  obtain ⟨d, hd⟩ := Fields.exists_get?_of_mem_names hfield
  rw [readNames, hd, Option.bind_some]
  constructor
  · intro hfinds
    cases hfinds with
    | names hfound h =>
      rw [hd] at hfound
      cases hfound
      rw [listsNames_iff] at h
      cases hnames : readNames? d with
      | none => rfl
      | some names => exact absurd ⟨names, hnames⟩ h
  · intro h
    split at h
    · cases h
    · rename_i hnone
      cases h
      refine .names hd ?_
      rw [listsNames_iff, hnone]
      simp

theorem recordOf_eq_ok_iff : recordOf d = .ok fields ↔ d = .record fields := by
  cases d <;> simp [recordOf]

/-- Behind the check for missing fields all of them are there. -/
theorem mem_names_of_noneMissing (h : noneMissing fields = .ok ()) :
    ∀ name ∈ fieldNames, name ∈ fields.names := by
  rw [noneMissing] at h
  split at h
  · cases h
  · rename_i hnone
    exact missingFields_eq_nil_iff.1 (Classical.not_not.1 hnone)

/-- Reading fails with what the first check finds. -/
theorem ofDatum_eq_error_iff : ofDatum d = .error e ↔ FirstFound Check.inOrder d e := by
  rw [ofDatum_eq_steps]
  refine (firstFound_iff_bind (fun _ => finds_record_iff) fun fields hd => ?_).symm
  obtain rfl := recordOf_eq_ok_iff.1 hd
  refine firstFound_iff_bind (fun _ => finds_missing_iff) fun _ hmissing => ?_
  have hfield := mem_names_of_noneMissing hmissing
  refine firstFound_iff_bind (fun _ => finds_unknown_iff) fun _ _ => ?_
  refine firstFound_iff_bind (fun _ => finds_table_iff (hfield _ (by decide))) fun rows hrows => ?_
  refine firstFound_iff_bind (fun _ => finds_rows_iff hrows) fun _ _ => ?_
  refine firstFound_iff_bind (fun _ => finds_initial_iff (hfield _ (by decide))) fun _ _ => ?_
  refine firstFound_iff_bind (fun _ => finds_names_iff (hfield _ (by decide))) fun _ _ => ?_
  refine firstFound_iff_bind (fun _ => finds_names_iff (hfield _ (by decide))) fun _ _ => ?_
  refine firstFound_iff_bind (fun _ => finds_names_iff (hfield _ (by decide))) fun _ _ => ?_
  exact iff_of_false not_firstFound_nil (by simp [pure, Except.pure])

/-! ## The shape -/

/-- A document is read from the records of its shape. -/
theorem exists_ofDatum_iff : (∃ doc, ofDatum d = .ok doc) ↔
    ∃ fields, d = .record fields ∧ HasShape fields := by
  simp only [ofDatum_eq_ok_iff]
  constructor
  · intro hdoc
    obtain ⟨doc, fields, rfl, h⟩ := hdoc
    refine ⟨fields, rfl, h.names, ⟨_, h.table, ?_⟩, ⟨_, h.initial⟩, ?_⟩
    · exact exists_readRows_iff.1 ⟨doc.table, readRows_eq_ok_iff.2 rfl⟩
    · have hnames : ∀ names, ListsNames (namesDatum names) := fun names =>
        listsNames_iff.2 ⟨names, readNames?_namesDatum names⟩
      simp [h.states, h.symbols, h.finals, hnames]
  · intro hshape
    obtain ⟨fields, rfl, h⟩ := hshape
    obtain ⟨rows, htable, hrows⟩ := h.table
    obtain ⟨table, hread⟩ := exists_readRows_iff.2 hrows
    obtain rfl := readRows_eq_ok_iff.1 hread
    obtain ⟨initial, hinitial⟩ := h.initial
    have hlist : ∀ field ∈ ["states", "alphabet", "finalStates"],
        ∃ names, Fields.get? fields field = some (namesDatum names) := by
      intro field hfield
      obtain ⟨d, hd, hlists⟩ := h.lists field hfield
      obtain ⟨names, hnames⟩ := listsNames_iff.1 hlists
      exact ⟨names, readNames?_eq_some_iff.1 hnames ▸ hd⟩
    obtain ⟨states, hstates⟩ := hlist "states" (by decide)
    obtain ⟨symbols, hsymbols⟩ := hlist "alphabet" (by decide)
    obtain ⟨finals, hfinals⟩ := hlist "finalStates" (by decide)
    exact ⟨⟨states, symbols, table, initial, finals⟩, fields, rfl, h.names, hstates, hsymbols, htable,
      hinitial, hfinals⟩

/-- The fields of a document are those that it was read from. -/
theorem Fills.get?_fields {doc : Document} (h : Fills fields doc) (name : String) :
    Fields.get? doc.fields name = fields.get? name := by
  by_cases hname : name ∈ fieldNames
  · simp only [fieldNames, List.mem_cons, List.not_mem_nil, or_false] at hname
    obtain rfl | rfl | rfl | rfl | rfl := hname
    · exact h.states.symm
    · exact h.symbols.symm
    · exact h.table.symm
    · exact h.initial.symm
    · exact h.finals.symm
  · rw [Fields.get?_eq_none_iff.2 hname, Fields.get?_eq_none_iff.2 (mt (h.names name).1 hname)]

/-- Exactly the records with the five fields, each of the right kind, are read as documents. Writing
the document gives the same values under the same names, and every document that is written is read
back, whether or not it describes an automaton. Anything else is refused with what the first check
finds that finds anything, and no look-up of a field ever misses. -/
theorem reading_finds_shape_or_first_fault :
    (∀ d, (∃ doc, ofDatum d = .ok doc) ↔ ∃ fields, d = .record fields ∧ HasShape fields) ∧
    (∀ d doc, ofDatum d = .ok doc → ∃ fields kept, d = .record fields ∧
      doc.toDatum = .record kept ∧ Fields.names kept = fieldNames ∧
      ∀ name, Fields.get? kept name = Fields.get? fields name) ∧
    (∀ doc : Document, ofDatum doc.toDatum = .ok doc) ∧
    (∀ d e, ofDatum d = .error e ↔ FirstFound Check.inOrder d e) ∧
    ∀ d, tryOfDatum d = (ofDatum d).mapError fun e => .document (.shape e) := by
  refine ⟨fun d => exists_ofDatum_iff, ?_, ofDatum_toDatum, fun d e => ofDatum_eq_error_iff,
    tryOfDatum_eq⟩
  intro d doc h
  obtain ⟨fields, rfl, hfills⟩ := ofDatum_eq_ok_iff.1 h
  exact ⟨fields, doc.fields, rfl, rfl, names_fields doc, hfills.get?_fields⟩

/-- A document in another order of its fields, which describes no automaton. -/
def reordered : Datum := .record [("finalStates", .list [.text "r", .text "r"]),
  ("delta", .record [("q", .record [("1", .null), ("0", .text "p")]), ("", .record [])]),
  ("alphabet", .list []), ("initialState", .text ""), ("states", .list [.text "q", .text "q"])]

/-- Two rows of three are unfit, and so are the initial and the final states. -/
def manyFaults : Datum := .record [("finalStates", .null),
  ("delta", .record [("q", .record [("1", .null), ("0", .text "p")]),
    ("p", .record [("1", .text "q"), ("0", .int 5), ("2", .bool true)]), ("", .list [])]),
  ("alphabet", .list []), ("initialState", .int 0), ("states", .list [.text "q"])]

theorem first_bad_target_is_reported :
    ofDatum manyFaults = .error (.badTarget "p" "0") ∧
    FirstFound Check.inOrder manyFaults (.badTarget "p" "0") ∧
    Finds .initial manyFaults .initialNotName ∧
    ∃ doc, ofDatum reordered = .ok doc ∧ ¬ doc.description.Legal ∧
      ∃ fields kept, reordered = .record fields ∧ doc.toDatum = .record kept ∧
        Fields.names kept = fieldNames ∧ ∀ name, Fields.get? kept name = Fields.get? fields name := by
  obtain ⟨-, hkept, -, hfault, -⟩ := reading_finds_shape_or_first_fault
  have hrefused : ofDatum manyFaults = .error (.badTarget "p" "0") := rfl
  refine ⟨hrefused, (hfault _ _).1 hrefused, .initial rfl fun q hq => (by cases hq), _, rfl, ?_,
    hkept _ _ rfl⟩
  intro hlegal
  exact absurd hlegal.states_nodup (by decide)

end Document
end WordAutomata
