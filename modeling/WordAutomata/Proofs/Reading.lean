import WordAutomata.Proofs.Shape
import WordAutomata.Proofs.Text.Quoted

/-!
# What reading an automaton can fail with

The checks look names up, go through items and fields, sort data and ask whether a datum is a member
of a set. Each of these operations fails on its own when a name is missing or a datum is not of the
right kind. Behind the checks of the shape none of them does, and behind the first rules none of the
look-ups of the later ones does: a text is read as a sound automaton, or it is refused for its
shape, or for the rules of a description.
-/
namespace WordAutomata

/-- A failure of an operation that a check relies on without looking. -/
inductive Slip where
  /-- A name is looked up that is not there. -/
  | missingName
  /-- A datum does not have the items or the fields that are asked for. -/
  | wrongKind
  /-- Data without a common order are to be sorted. -/
  | unordered
  /-- A list or a record is to be a member of a set. -/
  | unhashable
deriving DecidableEq

/-- What reading an automaton fails with: an error that is looked for, or a slip. -/
inductive ReadFault where
  | document (error : DocumentError)
  | slip (slip : Slip)
deriving DecidableEq

/-- The two families of errors that are looked for. -/
inductive DocumentError.Family where
  /-- The text does not have the format of a stored automaton. -/
  | format
  /-- What is stored breaks a rule of construction. -/
  | construction
deriving DecidableEq

def DocumentError.family : DocumentError → Family
  | .syntaxError _ => .format
  | .shape _ => .format
  | .defect _ => .construction

/-! ## Operations that can fail -/

def Fields.tryGet {κ α : Type} [DecidableEq κ] (fields : Fields κ α) (name : κ) : Except Slip α :=
  match fields.get? name with
  | some value => .ok value
  | none => .error .missingName

namespace Datum

/-- The items of a datum that is gone through. -/
def tryItems (d : Datum) : Except Slip (List Datum) :=
  match d.items? with
  | some items => .ok items
  | none => .error .wrongKind

/-- The fields of a datum that is taken for a record. -/
def tryFields : Datum → Except Slip (Fields String Datum)
  | record fields => .ok fields
  | _ => .error .wrongKind

/-- A datum that is asked for in a set, or put into one. -/
def tryMember : Datum → Except Slip Datum
  | list _ => .error .unhashable
  | record _ => .error .unhashable
  | d => .ok d

def isNumber : Datum → Bool
  | bool _ => true
  | int _ => true
  | real _ => true
  | _ => false

/-- Data that are sorted: names among themselves, or numbers. A single datum is compared with
nothing. -/
def trySorted (items : List Datum) : Except Slip (List Datum) :=
  if items.length ≤ 1 ∨ items.all (fun d => d.asText?.isSome) ∨ items.all isNumber then .ok items
  else .error .unordered

end Datum

namespace Description

/-- The differences between expected names and given data, which are sorted to be shown. -/
def tryDifferences? (expected : Names) (given : List Datum) :
    Except Slip (Option (Names × List Datum)) :=
  match differences? expected given with
  | none => .ok none
  | some (missing, extra) => (Datum.trySorted extra).map fun extra => some (missing, extra)

def tryRowsDefect? (d : Description) : Except Slip (Option Defect) :=
  (tryDifferences? d.stateSet d.table.names).map fun differences =>
    differences.map fun (missing, extra) => .rowsDiffer missing extra

def tryEntriesDefect? (d : Description) : Except Slip (Option Defect) :=
  d.stateSet.toList.findSomeM? fun q => do
    let row ← d.table.tryGet (.text q)
    let differences ← tryDifferences? d.symbolSet row.names
    return differences.map fun (missing, extra) => .entriesDiffer q missing extra

def tryTargetDefect? (d : Description) : Except Slip (Option Defect) :=
  d.stateSet.toList.findSomeM? fun q => d.symbolSet.toList.findSomeM? fun a => do
    let row ← d.table.tryGet (.text q)
    let target ← row.tryGet (.text a)
    let target ← target.tryMember
    return if target = .null ∨ target.isIn d.stateSet then none
      else some (.unknownTarget q a target)

def tryInitialDefect? (d : Description) : Except Slip (Option Defect) := do
  let q ← d.initial.tryMember
  return if q.isIn d.stateSet then none else some (.unknownInitial q)

def tryFinalDefect? (d : Description) : Except Slip (Option Defect) := do
  let finals ← d.finals.mapM Datum.tryMember
  return (leastQuoted? (finals.filter fun q => !q.isIn d.stateSet)).map .unknownFinal

/-- The defect that one rule finds, or else what the rules behind it find. -/
def tryOr (first rest : Except Slip (Option Defect)) : Except Slip (Option Defect) := do
  match ← first with
  | some defect => return some defect
  | none => rest

/-- The rules in their order, with operations that can fail. -/
def tryDefect? (d : Description) : Except Slip (Option Defect) :=
  tryOr (.ok d.stateDefect?) <| tryOr (.ok d.symbolDefect?) <| tryOr d.tryRowsDefect? <|
    tryOr d.tryEntriesDefect? <| tryOr d.tryTargetDefect? <| tryOr d.tryInitialDefect?
      d.tryFinalDefect?

/-- The automaton of a description, with operations that can fail. The row of every state is looked
up once more to be copied. -/
def tryBuild (d : Description) : Except ReadFault Dfa :=
  match d.tryDefect? with
  | .error slip => .error (.slip slip)
  | .ok (some defect) => .error (.document (.defect defect))
  | .ok none =>
    match d.stateSet.toList.mapM fun q => d.table.tryGet (.text q) with
    | .error slip => .error (.slip slip)
    | .ok _ => d.build.mapError fun defect => .document (.defect defect)

/-- A row of a table, of which the value is taken for a record. -/
def tryRow (row : String × Datum) : Except Slip (Datum × Fields Datum Datum) :=
  row.2.tryFields.map fun entries =>
    (.text row.1, entries.map fun entry => (.text entry.1, entry.2))

/-- The description with the parts that some data hold. Of these the first two and the last are gone
through, and the third is taken for a record of records. -/
def tryOfData (states symbols table initial finals : Datum) : Except Slip Description := do
  let states ← states.tryItems
  let symbols ← symbols.tryItems
  let rows ← table.tryFields
  let table ← rows.mapM tryRow
  let finals ← finals.tryItems
  return { states, symbols, table, initial, finals }

end Description

namespace Document

/-- A part of a document, read from a field that must be there. -/
def tryPart {α : Type} (fields : Fields String Datum) (field : String)
    (readPart : Datum → Except ShapeError α) : Except ReadFault α :=
  match fields.tryGet field with
  | .error slip => .error (.slip slip)
  | .ok d => (readPart d).mapError fun e => .document (.shape e)

/-- The names that the datum of a field lists. -/
def partNames (field : String) (d : Datum) : Except ShapeError (List String) :=
  match readNames? d with
  | some names => .ok names
  | none => .error (.notNames field)

def partTable : Datum → Except ShapeError TransitionTable
  | .record rows => readRows rows
  | _ => .error .tableNotRecord

def partInitial : Datum → Except ShapeError String
  | .text q => .ok q
  | _ => .error .initialNotName

/-- The document that a datum is, with look-ups that can fail. -/
def tryOfDatum : Datum → Except ReadFault Document
  | .record fields =>
    if missingFields fields ≠ [] then
      .error (.document (.shape (.missingFields (missingFields fields))))
    else if unknownFields fields ≠ [] then
      .error (.document (.shape (.unknownFields (unknownFields fields))))
    else do
      let table ← tryPart fields "delta" partTable
      let initial ← tryPart fields "initialState" partInitial
      let states ← tryPart fields "states" (partNames "states")
      let symbols ← tryPart fields "alphabet" (partNames "alphabet")
      let finals ← tryPart fields "finalStates" (partNames "finalStates")
      return { states, symbols, table, initial, finals }
  | d => .error (.document (.shape (.notRecord d.kindName)))

/-- The automaton of a document, with operations that can fail. -/
def tryBuild (doc : Document) : Except ReadFault Dfa :=
  match Description.tryOfData (namesDatum doc.states) (namesDatum doc.symbols)
    (.record (rowsData doc.table)) (.text doc.initial) (namesDatum doc.finals) with
  | .error slip => .error (.slip slip)
  | .ok d => d.tryBuild

end Document

/-- The automaton that a JSON text stores, with operations that can fail. -/
def Dfa.tryRead (text : String) : Except ReadFault Dfa :=
  match Json.read text with
  | .error e => .error (.document (.syntaxError e))
  | .ok d => do
    let doc ← Document.tryOfDatum d
    doc.tryBuild

/-! ## Operations that do not fail -/

theorem Fields.tryGet_eq_ok_iff {κ α : Type} [DecidableEq κ] {fields : Fields κ α} {name : κ}
    {value : α} : fields.tryGet name = .ok value ↔ fields.get? name = some value := by
  unfold tryGet
  split
  · rename_i h
    simp [h]
  · rename_i h
    simp [h]

theorem Datum.tryMember_eq_ok {d : Datum} (h : d.IsScalar) : d.tryMember = .ok d := by
  cases d with
  | list _ => exact h.elim
  | record _ => exact h.elim
  | _ => rfl

/-- A search in which no step fails finds what a plain search finds. -/
theorem findSomeM?_eq_ok {ε α β : Type} {f : α → Except ε (Option β)} {g : α → Option β}
    {items : List α} (h : ∀ x ∈ items, f x = .ok (g x)) :
    items.findSomeM? f = .ok (items.findSome? g) := by
  induction items with
  | nil => rfl
  | cons x items ih =>
    have hrest := ih fun y hy => h y (List.mem_cons_of_mem _ hy)
    rw [List.findSomeM?, h x List.mem_cons_self, List.findSome?_cons]
    cases g x with
    | none => exact hrest
    | some b => rfl

namespace Description

variable {d : Description}

/-- Among names the differences can be sorted. -/
theorem tryDifferences?_eq (expected : Names) {given : List Datum}
    (h : ∀ x ∈ given, ∃ s, x = .text s) :
    tryDifferences? expected given = .ok (differences? expected given) := by
  have hsorted : ∀ s : Names, Datum.trySorted (Datum.listed [] s) = .ok (Datum.listed [] s) := by
    intro s
    refine if_pos (.inr (.inl ?_))
    simp [Datum.listed, Datum.byRank]
  simp only [tryDifferences?, differences?, Datum.filter_isNone_asText? h]
  split
  · rename_i hnone
    rw [hnone]
  · rename_i missing extra hsome
    rw [hsome]
    split at hsome
    · cases hsome
    · cases hsome
      rw [hsorted]
      rfl

theorem tryRowsDefect?_eq (hn : d.Named) : d.tryRowsDefect? = .ok d.rowsDefect? := by
  rw [tryRowsDefect?, tryDifferences?_eq d.stateSet hn.row]
  rfl

/-- Behind the rule of the rows every state has a row. -/
theorem tryGet_table (hrows : d.rowsDefect? = none) {q : String} (hq : q ∈ d.stateSet) :
    d.table.tryGet (.text q) = .ok (d.row q) := by
  have hmem := (rowsDefect?_eq_none_iff.1 hrows (.text q)).2 (Datum.isIn_text.2 hq)
  obtain ⟨row, hrow⟩ := Fields.exists_get?_of_mem_names hmem
  rw [Fields.tryGet_eq_ok_iff, hrow, row_eq hrow]

theorem tryEntriesDefect?_eq (hn : d.Named) (hrows : d.rowsDefect? = none) :
    d.tryEntriesDefect? = .ok d.entriesDefect? := by
  refine findSomeM?_eq_ok fun q hq => ?_
  rw [tryGet_table hrows hq, ok_bind, tryDifferences?_eq d.symbolSet (hn.names_row q), ok_bind]
  rfl

/-- Behind the rules of rows and entries every state and symbol has an entry. -/
theorem tryGet_row (hentries : d.entriesDefect? = none) {q a : String} (hq : q ∈ d.stateSet)
    (ha : a ∈ d.symbolSet) : (d.row q).tryGet (.text a) = .ok (d.entry q a) := by
  have hmem := (entriesDefect?_eq_none_iff.1 hentries q hq (.text a)).2 (Datum.isIn_text.2 ha)
  obtain ⟨target, htarget⟩ := Fields.exists_get?_of_mem_names hmem
  rw [Fields.tryGet_eq_ok_iff, htarget, entry, htarget, Option.getD_some]

theorem isScalar_entry (htargets : ∀ row ∈ d.table, ∀ entry ∈ row.2, entry.2.IsScalar)
    (q a : String) : (d.entry q a).IsScalar := by
  rw [entry, Description.row]
  cases hrow : d.table.get? (.text q) with
  | none => trivial
  | some row =>
    rw [Option.getD_some]
    cases hentry : row.get? (.text a) with
    | none => trivial
    | some target =>
      exact htargets _ (Fields.mem_of_get?_eq_some hrow) _ (Fields.mem_of_get?_eq_some hentry)

theorem tryTargetDefect?_eq (hrows : d.rowsDefect? = none) (hentries : d.entriesDefect? = none)
    (htargets : ∀ row ∈ d.table, ∀ entry ∈ row.2, entry.2.IsScalar) :
    d.tryTargetDefect? = .ok d.targetDefect? := by
  refine findSomeM?_eq_ok fun q hq => findSomeM?_eq_ok fun a ha => ?_
  rw [tryGet_table hrows hq, ok_bind, tryGet_row hentries hq ha, ok_bind,
    Datum.tryMember_eq_ok (isScalar_entry htargets q a), ok_bind]
  rfl

theorem tryInitialDefect?_eq (h : d.initial.IsScalar) :
    d.tryInitialDefect? = .ok d.initialDefect? := by
  rw [tryInitialDefect?, Datum.tryMember_eq_ok h, ok_bind]
  rfl

theorem tryFinalDefect?_eq (h : ∀ q ∈ d.finals, q.IsScalar) :
    d.tryFinalDefect? = .ok d.finalDefect? := by
  have hfinals : d.finals.mapM Datum.tryMember = .ok (d.finals.map id) :=
    mapM_eq_ok_map fun q hq => Datum.tryMember_eq_ok (h q hq)
  rw [tryFinalDefect?, hfinals, ok_bind, List.map_id]
  rfl

/-- A rule that does not slip, and rules behind it that do not slip if it finds nothing. -/
theorem tryOr_eq {first rest : Except Slip (Option Defect)} {x y : Option Defect}
    (hfirst : first = .ok x) (hrest : x = none → rest = .ok y) :
    tryOr first rest = .ok (x.or y) := by
  subst hfirst
  cases x with
  | none => exact hrest rfl
  | some defect => rfl

/-- A description of which the names are texts and everything else is a scalar. -/
structure Regular (d : Description) : Prop where
  named : d.Named
  targets : ∀ row ∈ d.table, ∀ entry ∈ row.2, entry.2.IsScalar
  initial : d.initial.IsScalar
  finals : ∀ q ∈ d.finals, q.IsScalar

/-- The rules of a regular description do not slip, whichever of them are broken. -/
theorem Regular.tryDefect?_eq (h : d.Regular) : d.tryDefect? = .ok d.defect? := by
  refine tryOr_eq rfl fun _ => tryOr_eq rfl fun _ => ?_
  refine tryOr_eq (tryRowsDefect?_eq h.named) fun hrows => ?_
  refine tryOr_eq (tryEntriesDefect?_eq h.named hrows) fun hentries => ?_
  refine tryOr_eq (tryTargetDefect?_eq hrows hentries h.targets) fun _ => ?_
  exact tryOr_eq (tryInitialDefect?_eq h.initial) fun _ => tryFinalDefect?_eq h.finals

theorem Regular.tryBuild_eq (h : d.Regular) :
    d.tryBuild = d.build.mapError fun defect => .document (.defect defect) := by
  rw [tryBuild, h.tryDefect?_eq]
  cases hd : d.defect? with
  | some defect =>
    rw [build_eq_error_iff.2 hd]
    rfl
  | none =>
    obtain ⟨-, -, hrows, -⟩ := defect?_eq_none_iff.1 hd
    have hcopy : (d.stateSet.toList.mapM fun q => d.table.tryGet (.text q)) =
        .ok (d.stateSet.toList.map d.row) := mapM_eq_ok_map fun q hq => tryGet_table hrows hq
    rw [hcopy]

end Description

namespace Document

/-- The description of a document is regular: the shape sees to it. -/
theorem regular_description (doc : Document) : doc.description.Regular where
  named := by
    constructor
    · intro q hq
      obtain ⟨given, hgiven, rfl⟩ := List.mem_map.1 hq
      obtain ⟨row, -, rfl⟩ := List.mem_map.1 hgiven
      exact ⟨row.1, rfl⟩
    · intro given hgiven a ha
      obtain ⟨row, -, rfl⟩ := List.mem_map.1 hgiven
      obtain ⟨entry, hentry, rfl⟩ := List.mem_map.1 ha
      obtain ⟨entry, -, rfl⟩ := List.mem_map.1 hentry
      exact ⟨entry.1, rfl⟩
  targets := by
    intro given hgiven entry hentry
    obtain ⟨row, -, rfl⟩ := List.mem_map.1 hgiven
    obtain ⟨entry, -, rfl⟩ := List.mem_map.1 hentry
    cases entry.2 <;> trivial
  initial := trivial
  finals := by
    intro q hq
    obtain ⟨s, -, rfl⟩ := List.mem_map.1 hq
    trivial

theorem tryOfData_eq (doc : Document) :
    Description.tryOfData (namesDatum doc.states) (namesDatum doc.symbols)
      (.record (rowsData doc.table)) (.text doc.initial) (namesDatum doc.finals) =
        .ok doc.description := by
  have htable : (rowsData doc.table).mapM Description.tryRow = .ok doc.description.table := by
    rw [rowsData, List.mapM_map]
    refine mapM_eq_ok_map fun row _ => ?_
    simp only [Function.comp_apply, Description.tryRow, Datum.tryFields, Except.map, rowData,
      List.map_map, Function.comp_def]
  rw [Description.tryOfData]
  simp only [namesDatum, Datum.tryItems, Datum.items?, Datum.tryFields, ok_bind, htable]
  rfl

theorem tryBuild_eq (doc : Document) :
    doc.tryBuild = doc.description.build.mapError fun defect => .document (.defect defect) := by
  rw [tryBuild, tryOfData_eq]
  exact doc.regular_description.tryBuild_eq

section Parts

variable {fields : Fields String Datum} {field : String}

theorem tryPart_eq {α : Type} (h : field ∈ fields.names) {readPart : Datum → Except ShapeError α}
    {part : Except ShapeError α} (hpart : ∀ d, fields.get? field = some d → readPart d = part) :
    tryPart fields field readPart = part.mapError fun e => .document (.shape e) := by
  obtain ⟨d, hd⟩ := Fields.exists_get?_of_mem_names h
  rw [tryPart, Fields.tryGet_eq_ok_iff.2 hd, ← hpart d hd]

theorem tryPart_names (h : field ∈ fields.names) : tryPart fields field (partNames field) =
    (readNames fields field).mapError fun e => .document (.shape e) := by
  refine tryPart_eq h fun d hd => ?_
  cases hnames : readNames? d <;> simp [partNames, readNames, hd, hnames]

theorem tryPart_table (h : "delta" ∈ fields.names) : tryPart fields "delta" partTable =
    (readTable fields).mapError fun e => .document (.shape e) := by
  refine tryPart_eq h fun d hd => ?_
  rw [readTable, hd]
  cases d <;> rfl

theorem tryPart_initial (h : "initialState" ∈ fields.names) :
    tryPart fields "initialState" partInitial =
      (readInitial fields).mapError fun e => .document (.shape e) := by
  refine tryPart_eq h fun d hd => ?_
  rw [readInitial, hd, Option.bind_some]
  cases d <;> rfl

end Parts

/-- Once no field is missing, every look-up of a field succeeds. -/
theorem tryOfDatum_eq (d : Datum) :
    tryOfDatum d = (ofDatum d).mapError fun e => .document (.shape e) := by
  cases d with
  | record fields =>
    rw [ofDatum_record, tryOfDatum]
    split
    · rfl
    rename_i hmissing
    split
    · rfl
    have hfield := missingFields_eq_nil_iff.1 (Classical.not_not.1 hmissing)
    rw [tryPart_table (hfield _ (by decide)), tryPart_initial (hfield _ (by decide)),
      tryPart_names (hfield _ (by decide)), tryPart_names (hfield _ (by decide)),
      tryPart_names (hfield _ (by decide))]
    simp only [mapError_bind]
    rfl
  | _ => rfl

end Document

/-- Reading with operations that can fail is reading: none of them fails. -/
theorem Dfa.tryRead_eq (text : String) :
    Dfa.tryRead text = (Dfa.read text).mapError .document := by
  rw [tryRead, read]
  cases Json.read text with
  | error e => rfl
  | ok d =>
    simp only [Document.tryOfDatum_eq]
    cases Document.ofDatum d with
    | error e => rfl
    | ok doc =>
      have hbuild := doc.tryBuild_eq
      simp only [mapError_ok, ok_bind] at hbuild ⊢
      rw [hbuild]
      cases doc.description.build <;> rfl

/-- A JSON text holds a document. -/
def Document.WrittenIn (doc : Document) (text : String) : Prop :=
  ∃ d, Json.read text = .ok d ∧ doc.StoredAs d

/-- A text holds no document: it is no JSON text, or what it denotes has another shape. -/
theorem Document.not_writtenIn_iff {text : String} : (¬ ∃ doc : Document, doc.WrittenIn text) ↔
    (∃ e, Json.read text = .error e) ∨
      ∃ d, Json.read text = .ok d ∧ ¬ ∃ doc : Document, doc.StoredAs d := by
  constructor
  · intro h
    cases hread : Json.read text with
    | error e => exact .inl ⟨e, rfl⟩
    | ok d => exact .inr ⟨d, rfl, fun ⟨doc, hdoc⟩ => h ⟨doc, d, hread, hdoc⟩⟩
  · rintro (⟨e, he⟩ | ⟨d, hd, hshape⟩) ⟨doc, d', hd', hdoc⟩
    · rw [he] at hd'
      cases hd'
    · rw [hd] at hd'
      cases hd'
      exact hshape ⟨doc, hdoc⟩

namespace Dfa

variable {text : String}

theorem tryRead_of_writtenIn {doc : Document} (h : doc.WrittenIn text) :
    Dfa.tryRead text =
      doc.description.build.mapError fun defect => .document (.defect defect) := by
  obtain ⟨d, hd, hdoc⟩ := h
  rw [tryRead_eq, read, hd]
  simp only [Document.ofDatum_eq_ok_iff.2 hdoc]
  cases doc.description.build <;> rfl

theorem tryRead_of_not_writtenIn (h : ¬ ∃ doc : Document, doc.WrittenIn text) :
    ∃ e, Dfa.tryRead text = .error (.document e) ∧ e.family = .format := by
  rw [tryRead_eq, read]
  cases hread : Json.read text with
  | error e => exact ⟨.syntaxError e, rfl, rfl⟩
  | ok d =>
    cases hshape : Document.ofDatum d with
    | error e =>
      simp only [hshape]
      exact ⟨.shape e, rfl, rfl⟩
    | ok doc => exact absurd ⟨doc, d, hread, Document.ofDatum_eq_ok_iff.1 hshape⟩ h

/-- A document is read as a sound automaton with its parts, or refused for a rule. -/
theorem tryRead_document {doc : Document} (h : doc.WrittenIn text) :
    (doc.description.Legal ∧ ∃ M, Dfa.tryRead text = .ok M ∧ M.Sound ∧
      doc.description.Describes M) ∨
    (¬ doc.description.Legal ∧ ∃ e, Dfa.tryRead text = .error (.document e) ∧
      e.family = .construction) := by
  rw [tryRead_of_writtenIn h]
  cases hdefect : doc.description.defect? with
  | none =>
    refine .inl ⟨Description.defect?_eq_none_iff_legal.1 hdefect, doc.description.ofFit hdefect, ?_,
      sound _, Description.ofFit_describes hdefect⟩
    rw [Description.build_eq_ok_iff.2 ⟨hdefect, rfl⟩]
    rfl
  | some defect =>
    refine .inr ⟨?_, .defect defect, ?_, rfl⟩
    · intro hlegal
      rw [Description.defect?_eq_none_iff_legal.2 hlegal] at hdefect
      cases hdefect
    · rw [Description.build_eq_error_iff.2 hdefect]
      rfl

/-- What is read comes from a document. -/
theorem exists_document_of_tryRead {M : Dfa} (h : Dfa.tryRead text = .ok M) :
    ∃ doc : Document, doc.WrittenIn text ∧ doc.description.Legal ∧ M.Sound ∧
      doc.description.Describes M := by
  by_cases hdoc : ∃ doc : Document, doc.WrittenIn text
  · obtain ⟨doc, hdoc⟩ := hdoc
    rcases tryRead_document hdoc with ⟨hlegal, N, hN, hsound, hparts⟩ | ⟨-, e, he, -⟩
    · rw [h] at hN
      cases hN
      exact ⟨doc, hdoc, hlegal, hsound, hparts⟩
    · rw [h] at he
      cases he
  · obtain ⟨e, he, -⟩ := tryRead_of_not_writtenIn hdoc
    rw [h] at he
    cases he

theorem tryRead_format_iff : (∃ e, Dfa.tryRead text = .error (.document e) ∧ e.family = .format) ↔
    ¬ ∃ doc : Document, doc.WrittenIn text := by
  constructor
  · rintro ⟨e, he, hfamily⟩ ⟨doc, hdoc⟩
    rcases tryRead_document hdoc with ⟨-, M, hM, -⟩ | ⟨-, e', he', hfamily'⟩
    · rw [hM] at he
      cases he
    · rw [he'] at he
      cases he
      rw [hfamily] at hfamily'
      cases hfamily'
  · exact tryRead_of_not_writtenIn

theorem tryRead_construction_iff :
    (∃ e, Dfa.tryRead text = .error (.document e) ∧ e.family = .construction) ↔
      ∃ doc : Document, doc.WrittenIn text ∧ ¬ doc.description.Legal := by
  constructor
  · rintro ⟨e, he, hfamily⟩
    by_cases hdoc : ∃ doc : Document, doc.WrittenIn text
    · obtain ⟨doc, hdoc⟩ := hdoc
      rcases tryRead_document hdoc with ⟨-, M, hM, -⟩ | ⟨hillegal, -⟩
      · rw [hM] at he
        cases he
      · exact ⟨doc, hdoc, hillegal⟩
    · obtain ⟨e', he', hfamily'⟩ := tryRead_of_not_writtenIn hdoc
      rw [he'] at he
      cases he
      rw [hfamily] at hfamily'
      cases hfamily'
  · rintro ⟨doc, hdoc, hillegal⟩
    rcases tryRead_document hdoc with ⟨hlegal, -⟩ | ⟨-, hrefused⟩
    · exact absurd hlegal hillegal
    · exact hrefused

/-- A text is read as a sound automaton exactly if it holds a document that breaks no rule. It is
refused for its format exactly if it is no JSON text or denotes a datum of another shape, and for
the rules of construction exactly if it holds a document that breaks one of them. The operations
that the checks rely on never fail, so that there is no other way for reading to end. -/
theorem reading_ends_in_three_ways (text : String) :
    ((∃ M, Dfa.tryRead text = .ok M) ↔
      ∃ doc : Document, doc.WrittenIn text ∧ doc.description.Legal) ∧
    (∀ M, Dfa.tryRead text = .ok M → M.Sound ∧
      ∃ doc : Document, doc.WrittenIn text ∧ doc.description.Describes M) ∧
    ((∃ e, Dfa.tryRead text = .error (.document e) ∧ e.family = .format) ↔
      (∃ e, Json.read text = .error e) ∨
        ∃ d, Json.read text = .ok d ∧ ¬ ∃ doc : Document, doc.StoredAs d) ∧
    ((∃ e, Dfa.tryRead text = .error (.document e) ∧ e.family = .construction) ↔
      ∃ doc : Document, doc.WrittenIn text ∧ ¬ doc.description.Legal) ∧
    (∀ slip, Dfa.tryRead text ≠ .error (.slip slip)) ∧
    Dfa.tryRead text = (Dfa.read text).mapError .document := by
  rw [← Document.not_writtenIn_iff]
  refine ⟨⟨?_, ?_⟩, ?_, tryRead_format_iff, tryRead_construction_iff, ?_, tryRead_eq text⟩
  · rintro ⟨M, hM⟩
    obtain ⟨doc, hdoc, hlegal, -⟩ := exists_document_of_tryRead hM
    exact ⟨doc, hdoc, hlegal⟩
  · rintro ⟨doc, hdoc, hlegal⟩
    rcases tryRead_document hdoc with ⟨-, M, hM, -⟩ | ⟨hillegal, -⟩
    · exact ⟨M, hM⟩
    · exact absurd hlegal hillegal
  · intro M hM
    obtain ⟨doc, hdoc, -, hsound, hparts⟩ := exists_document_of_tryRead hM
    exact ⟨hsound, doc, hdoc, hparts⟩
  · intro slip hslip
    rw [tryRead_eq] at hslip
    cases hread : Dfa.read text with
    | ok M =>
      rw [hread] at hslip
      cases hslip
    | error e =>
      rw [hread] at hslip
      cases hslip

end Dfa
end WordAutomata
