import WordAutomata.Document
import WordAutomata.Proofs.Dfa.Table

/-!
# Which descriptions are automata

The scans and comparisons of a description are restated one rule at a time as conditions on what was
given. Together they say that an automaton is built exactly from a legal description, and that it
has the given states, symbols, targets, initial state and final states.
-/
namespace WordAutomata

/-- The conditions on the parts of a description, without regard to the order of checking. -/
structure Description.Legal (d : Description) : Prop where
  state_named : ∀ q ∈ d.states, ∃ s, q = .text s ∧ s ≠ ""
  states_nodup : d.states.Nodup
  symbols_ne_nil : d.symbols ≠ []
  symbol_named : ∀ a ∈ d.symbols, ∃ s, a = .text s ∧ s ≠ "" ∧ ',' ∉ s.toList
  symbols_nodup : d.symbols.Nodup
  rows : ∀ q, q ∈ d.table.names ↔ q ∈ d.states
  entries : ∀ q ∈ d.states, ∀ row, d.table.get? q = some row → ∀ a, a ∈ row.names ↔ a ∈ d.symbols
  targets : ∀ q ∈ d.states, ∀ row, d.table.get? q = some row →
    ∀ a ∈ d.symbols, ∀ target, row.get? a = some target → target = .null ∨ target ∈ d.states
  initial : d.initial ∈ d.states
  finals : ∀ q ∈ d.finals, q ∈ d.states

/-- The rows of a description's table, and their entries, are under names. -/
structure Description.Named (d : Description) : Prop where
  row : ∀ q ∈ d.table.names, ∃ s, q = .text s
  entry : ∀ row ∈ d.table, ∀ a ∈ row.2.names, ∃ s, a = .text s

/-- An automaton has exactly the parts that a description lists. -/
structure Description.Describes (d : Description) (M : Dfa) : Prop where
  states : (M.states.toList.map Datum.text).Perm d.states
  symbols : (M.alphabet.toList.map Datum.text).Perm d.symbols
  initial : .text M.initial = d.initial
  finals : ∀ q, q ∈ d.finals ↔ M.isFinal q = true
  entries : ∀ q ∈ M.states, ∀ a ∈ M.alphabet.symbols, ∃ row given target,
    M.table.get? q = some row ∧ row.get? a = some target ∧
    d.table.get? (.text q) = some given ∧ given.get? (.text a) = some (Document.targetDatum target)

/-- What can be observed of an automaton obeys the data model. -/
structure Dfa.Sound (M : Dfa) : Prop where
  states_ne_nil : M.states.toList ≠ []
  states_nodup : M.states.toList.Nodup
  state_ne_empty : ∀ q ∈ M.states, q ≠ ""
  symbols_ne_nil : M.alphabet.toList ≠ []
  symbols_nodup : M.alphabet.toList.Nodup
  symbol_ne_empty : ∀ a ∈ M.alphabet.symbols, a ≠ "" ∧ ',' ∉ a.toList
  rows : M.table.names = M.states.toList
  entries : ∀ q row, M.table.get? q = some row → row.names = M.alphabet.toList
  total : ∀ q ∈ M.states, ∀ a ∈ M.alphabet.symbols,
    ∃ target, M.next (.text q) (.text a) = .ok target ∧ ∀ r, target = some r → r ∈ M.states
  transitions : ∀ t ∈ M.transitions, t.source ∈ M.states ∧ t.symbol ∈ M.alphabet.symbols ∧
    t.target ∈ M.states ∧ M.next (.text t.source) (.text t.symbol) = .ok (some t.target)
  initial : M.initial ∈ M.states
  finals : ∀ q ∈ M.finals, q ∈ M.states

namespace Datum

theorem text_injective : Function.Injective text := by
  intro a b h
  cases h
  rfl

/-- Data that are all names are some names. -/
theorem exists_map_text {items : List Datum} (h : ∀ d ∈ items, ∃ a, d = text a) :
    ∃ names : List String, items = names.map text := by
  induction items with
  | nil => exact ⟨[], rfl⟩
  | cons d items ih =>
    obtain ⟨⟨a, rfl⟩, hitems⟩ := List.forall_mem_cons.1 h
    obtain ⟨names, rfl⟩ := ih hitems
    exact ⟨a :: names, rfl⟩

/-- Among names there are no other data. -/
theorem filter_isNone_asText? {items : List Datum} (h : ∀ d ∈ items, ∃ s, d = text s) :
    items.filter (fun d => d.asText?.isNone) = [] := by
  rw [List.filter_eq_nil_iff]
  intro d hd
  obtain ⟨s, rfl⟩ := h d hd
  simp

theorem nodup_map_text {names : List String} (h : names.Nodup) : (names.map text).Nodup :=
  List.Pairwise.map text (fun _ _ hne he => hne (text_injective he)) h

/-- Where every item is a name, the set of the names has the items for its members. -/
theorem isIn_ofList_names {items : List Datum} (h : ∀ d ∈ items, ∃ s, d = text s) (d : Datum) :
    d.isIn (.ofList (names items)) = true ↔ d ∈ items := by
  rw [isIn_iff]
  constructor
  · rintro ⟨a, rfl, ha⟩
    simpa using ha
  · intro hd
    obtain ⟨a, rfl⟩ := h d hd
    exact ⟨a, rfl, by simpa using hd⟩

/-- Names that are not repeated are a permutation of their set. -/
theorem map_text_ofList_names_perm {items : List Datum} (h : ∀ d ∈ items, ∃ s, d = text s)
    (hn : items.Nodup) : ((Names.ofList (names items)).toList.map text).Perm items := by
  refine (List.perm_ext_iff_of_nodup (nodup_map_text (Names.nodup _)) hn).2 fun d => ?_
  rw [← isIn_ofList_names h d, isIn_iff, List.mem_map]
  constructor
  · rintro ⟨a, ha, rfl⟩
    exact ⟨a, rfl, ha⟩
  · rintro ⟨a, rfl, ha⟩
    exact ⟨a, ha, rfl⟩

end Datum

/-- Sets whose members are the same data, in whatever order, are equal. -/
theorem Names.eq_of_map_text_perm {s t : Names}
    (h : (s.toList.map Datum.text).Perm (t.toList.map .text)) : s = t := by
  refine eq_of_mem_iff fun a => ?_
  have hmem := h.mem_iff (a := .text a)
  simpa [mem_def] using hmem

theorem Document.targetDatum_injective : Function.Injective targetDatum := by
  intro s t h
  cases s <;> cases t <;> cases h <;> rfl

/-- Names with a property that are not repeated and were not seen before. -/
def Datum.FreshNames (P : String → Prop) (seen : List String) (items : List Datum) : Prop :=
  (∀ d ∈ items, ∃ s, d = .text s ∧ P s ∧ s ∉ seen) ∧ items.Nodup

namespace Datum

theorem freshNames_nil {P : String → Prop} {seen : List String} : FreshNames P seen [] :=
  ⟨by simp, .nil⟩

/-- One step of a scan: the first name is checked and counts as seen from then on. -/
theorem freshNames_cons_iff {P : String → Prop} {seen : List String} {q : String}
    {rest : List Datum} : FreshNames P seen (text q :: rest) ↔
      P q ∧ q ∉ seen ∧ FreshNames P (q :: seen) rest := by
  rw [FreshNames, FreshNames, List.nodup_cons]
  constructor
  · rintro ⟨hall, hmem, hnodup⟩
    obtain ⟨s, hs, hP, hfresh⟩ := hall _ List.mem_cons_self
    cases hs
    refine ⟨hP, hfresh, ?_, hnodup⟩
    intro d hd
    obtain ⟨s, rfl, hP', hfresh'⟩ := hall d (List.mem_cons_of_mem _ hd)
    refine ⟨s, rfl, hP', ?_⟩
    intro hseen
    rcases List.mem_cons.1 hseen with rfl | hseen
    · exact hmem hd
    · exact hfresh' hseen
  · rintro ⟨hP, hfresh, hrest, hnodup⟩
    refine ⟨?_, ?_, hnodup⟩
    · intro d hd
      rcases List.mem_cons.1 hd with rfl | hd
      · exact ⟨q, rfl, hP, hfresh⟩
      · obtain ⟨s, rfl, hP', hfresh'⟩ := hrest d hd
        exact ⟨s, rfl, hP', fun hseen => hfresh' (List.mem_cons_of_mem _ hseen)⟩
    · intro hmem
      obtain ⟨s, hs, -, hfresh'⟩ := hrest _ hmem
      cases hs
      exact hfresh' List.mem_cons_self

theorem not_freshNames_cons {P : String → Prop} {seen : List String} {d : Datum}
    {rest : List Datum} (h : ∀ q, d = text q → False) : ¬ FreshNames P seen (d :: rest) := by
  rintro ⟨hall, -⟩
  obtain ⟨q, hq, -⟩ := hall d List.mem_cons_self
  exact h q hq

end Datum

theorem Alphabet.defectAfter?_eq_none_iff {seen : List String} {items : List Datum} :
    defectAfter? seen items = none ↔ (seen ≠ [] ∨ items ≠ []) ∧
      Datum.FreshNames (fun a => a ≠ "" ∧ ',' ∉ a.toList) seen items := by
  fun_induction defectAfter? seen items with
  | case1 => simp
  | case2 seen hs => simp [hs, Datum.freshNames_nil]
  | case3 => simp [Datum.freshNames_cons_iff]
  | case4 seen a rest ha hc => simp [Datum.freshNames_cons_iff, hc]
  | case5 seen a rest ha hc hs => simp [Datum.freshNames_cons_iff, hs]
  | case6 seen a rest ha hc hs ih => simp [Datum.freshNames_cons_iff, ih, ha, hc, hs]
  | case7 seen d rest hd => simp [Datum.not_freshNames_cons hd]

/-- Nothing is wrong with items that are distinct symbols, if there are any. -/
theorem Alphabet.defect?_eq_none_iff {items : List Datum} : defect? items = none ↔ items ≠ [] ∧
    (∀ d ∈ items, ∃ a, d = .text a ∧ a ≠ "" ∧ ',' ∉ a.toList) ∧ items.Nodup := by
  simp [defect?, defectAfter?_eq_none_iff, Datum.FreshNames]

namespace Description

theorem stateDefectAfter?_eq_none_iff {seen : List String} {items : List Datum} :
    stateDefectAfter? seen items = none ↔ Datum.FreshNames (· ≠ "") seen items := by
  fun_induction stateDefectAfter? seen items with
  | case1 => simp [Datum.freshNames_nil]
  | case2 => simp [Datum.freshNames_cons_iff]
  | case3 seen q rest hq hs => simp [Datum.freshNames_cons_iff, hs]
  | case4 seen q rest hq hs ih => simp [Datum.freshNames_cons_iff, ih, hq, hs]
  | case5 seen d rest hd => simp [Datum.not_freshNames_cons hd]

/-- Rules 1 and 2. -/
theorem stateDefect?_eq_none_iff {d : Description} :
    d.stateDefect? = none ↔ (∀ q ∈ d.states, ∃ s, q = .text s ∧ s ≠ "") ∧ d.states.Nodup := by
  simp [stateDefect?, stateDefectAfter?_eq_none_iff, Datum.FreshNames]

/-- Rule 3. -/
theorem symbolDefect?_eq_none_iff {d : Description} :
    d.symbolDefect? = none ↔ d.symbols ≠ [] ∧
      (∀ a ∈ d.symbols, ∃ s, a = .text s ∧ s ≠ "" ∧ ',' ∉ s.toList) ∧ d.symbols.Nodup := by
  rw [symbolDefect?, Option.map_eq_none_iff, Alphabet.defect?_eq_none_iff]

/-- Rule 4. -/
theorem rowsDefect?_eq_none_iff {d : Description} :
    d.rowsDefect? = none ↔ ∀ q, q ∈ d.table.names ↔ q.isIn d.stateSet = true := by
  simp [rowsDefect?, differences?_eq_none_iff]

/-- Rule 5. -/
theorem entriesDefect?_eq_none_iff {d : Description} :
    d.entriesDefect? = none ↔
      ∀ q ∈ d.stateSet, ∀ a, a ∈ (d.row q).names ↔ a.isIn d.symbolSet = true := by
  simp [entriesDefect?, differences?_eq_none_iff, Names.mem_def]

/-- Rule 6. -/
theorem targetDefect?_eq_none_iff {d : Description} :
    d.targetDefect? = none ↔ ∀ q ∈ d.stateSet, ∀ a ∈ d.symbolSet,
      d.entry q a = .null ∨ (d.entry q a).isIn d.stateSet = true := by
  simp [targetDefect?, Names.mem_def, Classical.or_iff_not_imp_left]

/-- Rule 7. -/
theorem initialDefect?_eq_none_iff {d : Description} :
    d.initialDefect? = none ↔ d.initial.isIn d.stateSet = true := by
  simp [initialDefect?]

/-- Rule 8. -/
theorem finalDefect?_eq_none_iff {d : Description} :
    d.finalDefect? = none ↔ ∀ q ∈ d.finals, q.isIn d.stateSet = true := by
  simp [finalDefect?, leastQuoted?_eq_none_iff, unknownFinals]

theorem isIn_stateSet {d : Description} (h : ∀ q ∈ d.states, ∃ s, q = .text s ∧ s ≠ "")
    (q : Datum) : q.isIn d.stateSet = true ↔ q ∈ d.states :=
  Datum.isIn_ofList_names (fun q hq => (h q hq).imp fun _ => And.left) q

theorem isIn_symbolSet {d : Description}
    (h : ∀ a ∈ d.symbols, ∃ s, a = .text s ∧ s ≠ "" ∧ ',' ∉ s.toList) (a : Datum) :
    a.isIn d.symbolSet = true ↔ a ∈ d.symbols :=
  Datum.isIn_ofList_names (fun a ha => (h a ha).imp fun _ => And.left) a

theorem mem_stateSet {d : Description} {q : String} : q ∈ d.stateSet ↔ .text q ∈ d.states := by
  simp [stateSet]

theorem mem_symbolSet {d : Description} {a : String} : a ∈ d.symbolSet ↔ .text a ∈ d.symbols := by
  simp [symbolSet]

theorem row_eq {d : Description} {q : String} {row : Fields Datum Datum}
    (h : d.table.get? (.text q) = some row) : d.row q = row := by
  simp [Description.row, h]

theorem entry_eq {d : Description} {q a : String} {row : Fields Datum Datum} {target : Datum}
    (hrow : d.table.get? (.text q) = some row) (h : row.get? (.text a) = some target) :
    d.entry q a = target := by
  simp [entry, row_eq hrow, h]

theorem Named.names_row {d : Description} (hn : d.Named) (q : String) :
    ∀ a ∈ (d.row q).names, ∃ s, a = .text s := by
  rw [Description.row]
  cases hrow : d.table.get? (.text q) with
  | none => exact fun a ha => absurd ha List.not_mem_nil
  | some row => exact hn.entry _ (Fields.mem_of_get?_eq_some hrow)

namespace Legal

variable {d : Description}

theorem exists_row (h : d.Legal) {q : String} (hq : q ∈ d.stateSet) :
    ∃ row, d.table.get? (.text q) = some row :=
  Fields.exists_get?_of_mem_names ((h.rows _).2 (mem_stateSet.1 hq))

/-- In a legal description every state and symbol has an entry. -/
theorem exists_entry (h : d.Legal) {q a : String} (hq : q ∈ d.stateSet) (ha : a ∈ d.symbolSet) :
    ∃ row target, d.table.get? (.text q) = some row ∧ row.get? (.text a) = some target ∧
      (target = .null ∨ target ∈ d.states) := by
  have hq' := mem_stateSet.1 hq
  have ha' := mem_symbolSet.1 ha
  obtain ⟨row, hrow⟩ := h.exists_row hq
  obtain ⟨target, htarget⟩ :=
    Fields.exists_get?_of_mem_names ((h.entries _ hq' row hrow _).2 ha')
  exact ⟨row, target, hrow, htarget, h.targets _ hq' row hrow _ ha' target htarget⟩

end Legal

/-- The rules in their order break none of the conditions exactly if all of them hold. -/
theorem defect?_eq_none_iff_legal {d : Description} : d.defect? = none ↔ d.Legal := by
  rw [defect?_eq_none_iff, stateDefect?_eq_none_iff, symbolDefect?_eq_none_iff,
    rowsDefect?_eq_none_iff, entriesDefect?_eq_none_iff, targetDefect?_eq_none_iff,
    initialDefect?_eq_none_iff, finalDefect?_eq_none_iff]
  constructor
  · rintro ⟨⟨hstate, hsn⟩, ⟨hne, hsymbol, han⟩, hrows, hentries, htargets, hinitial, hfinals⟩
    have hS := isIn_stateSet hstate
    have hA := isIn_symbolSet hsymbol
    refine ⟨hstate, hsn, hne, hsymbol, han, fun q => (hrows q).trans (hS q), ?_, ?_,
      (hS _).1 hinitial, fun q hq => (hS q).1 (hfinals q hq)⟩
    · intro q hq row hrow a
      obtain ⟨s, rfl, -⟩ := hstate q hq
      rw [← row_eq hrow]
      exact (hentries s (mem_stateSet.2 hq) a).trans (hA a)
    · intro q hq row hrow a ha target htarget
      obtain ⟨s, rfl, -⟩ := hstate q hq
      obtain ⟨b, rfl, -⟩ := hsymbol a ha
      have ht := htargets s (mem_stateSet.2 hq) b (mem_symbolSet.2 ha)
      rw [entry_eq hrow htarget] at ht
      exact ht.imp_right (hS target).1
  · intro h
    have hS := isIn_stateSet h.state_named
    have hA := isIn_symbolSet h.symbol_named
    refine ⟨⟨h.state_named, h.states_nodup⟩, ⟨h.symbols_ne_nil, h.symbol_named, h.symbols_nodup⟩,
      fun q => (h.rows q).trans (hS q).symm, ?_, ?_, (hS _).2 h.initial,
      fun q hq => (hS q).2 (h.finals q hq)⟩
    · intro q hq a
      obtain ⟨row, hrow⟩ := h.exists_row hq
      rw [row_eq hrow]
      exact (h.entries _ (mem_stateSet.1 hq) row hrow a).trans (hA a).symm
    · intro q hq a ha
      obtain ⟨row, target, hrow, hentry, htarget⟩ := h.exists_entry hq ha
      rw [entry_eq hrow hentry]
      exact htarget.imp_right (hS target).2

theorem build_eq_ok_iff {d : Description} {M : Dfa} :
    d.build = .ok M ↔ ∃ h : d.defect? = none, d.ofFit h = M := by
  unfold build
  split
  · rename_i defect h
    simp [h]
  · rename_i h
    simp [h]

theorem build_eq_error_iff {d : Description} {defect : Defect} :
    d.build = .error defect ↔ d.defect? = some defect := by
  unfold build
  split
  · rename_i h
    simp [h]
  · rename_i h
    simp [h]

/-- The automaton of a description without a defect has the parts that are listed. -/
theorem ofFit_describes {d : Description} (h : d.defect? = none) : d.Describes (d.ofFit h) := by
  have hl := defect?_eq_none_iff_legal.1 h
  have hstate : ∀ q ∈ d.states, ∃ s, q = .text s :=
    fun q hq => (hl.state_named q hq).imp fun _ => And.left
  have hsymbol : ∀ a ∈ d.symbols, ∃ s, a = .text s :=
    fun a ha => (hl.symbol_named a ha).imp fun _ => And.left
  constructor
  · exact Datum.map_text_ofList_names_perm hstate hl.states_nodup
  · exact Datum.map_text_ofList_names_perm hsymbol hl.symbols_nodup
  · obtain ⟨s, hs⟩ := hstate _ hl.initial
    simp [ofFit, hs]
  · intro q
    exact (Datum.isIn_ofList_names (fun q hq => hstate q (hl.finals q hq)) q).symm
  · intro q hq a ha
    obtain ⟨row, target, hrow, hentry, htarget⟩ := hl.exists_entry hq ha
    refine ⟨d.symbolSet.toList.map fun a => (a, d.target? q a), row, d.target? q a, ?_, ?_, hrow,
      ?_⟩
    · exact (Fields.get?_map_pair d.stateSet.toList _ q).trans (if_pos hq)
    · exact (Fields.get?_map_pair d.symbolSet.toList _ a).trans (if_pos ha)
    · rw [target?, entry_eq hrow hentry, hentry]
      rcases htarget with rfl | hmem
      · rfl
      · obtain ⟨r, rfl⟩ := hstate target hmem
        rfl

/-- A description is that of at most one automaton. -/
theorem Describes.unique {d : Description} {M N : Dfa} (hM : d.Describes M) (hN : d.Describes N) :
    M = N := by
  have hstates : M.states = N.states :=
    Names.eq_of_map_text_perm (hM.states.trans hN.states.symm)
  have halphabet : M.alphabet = N.alphabet :=
    Alphabet.ext (Names.eq_of_map_text_perm (hM.symbols.trans hN.symbols.symm))
  have hfinals : M.finals = N.finals := by
    refine Names.eq_of_mem_iff fun q => ?_
    have h := (hM.finals (.text q)).symm.trans (hN.finals (.text q))
    rw [Dfa.isFinal, Dfa.isFinal, Datum.isIn_text, Datum.isIn_text] at h
    exact h
  refine Dfa.eq_of_next?_eq hstates halphabet ?_ ?_ hfinals
  · intro q hq a ha
    obtain ⟨row, given, target, hrow, hentry, hgiven, htarget⟩ := hM.entries q hq a ha
    obtain ⟨row', given', target', hrow', hentry', hgiven', htarget'⟩ :=
      hN.entries q (hstates ▸ hq) a (halphabet ▸ ha)
    rw [hgiven] at hgiven'
    cases hgiven'
    rw [htarget] at htarget'
    have heq := Document.targetDatum_injective (Option.some.inj htarget')
    simp only [Dfa.next?, hrow, hrow', Option.bind_some, hentry, hentry', heq]
  · exact Datum.text_injective (hM.initial.trans hN.initial.symm)

end Description

namespace Dfa

/-- Every automaton obeys the data model in all that can be observed of it. -/
theorem sound (M : Dfa) : M.Sound where
  states_ne_nil := List.ne_nil_of_mem M.initial_mem
  states_nodup := M.states.nodup
  state_ne_empty := M.state_ne_empty
  symbols_ne_nil := M.alphabet.symbols_ne_nil
  symbols_nodup := M.alphabet.symbols.nodup
  symbol_ne_empty := fun a ha => ⟨M.alphabet.symbol_ne_empty a ha, M.alphabet.comma_not_mem a ha⟩
  rows := M.states_names
  entries := fun q row h => M.row_symbols _ (Fields.mem_of_get?_eq_some h)
  total := fun q hq a ha => ⟨M.next? q a, next_eq_ok hq ha, fun _ => next?_mem_states⟩
  transitions := by
    intro t ht
    obtain ⟨hq, ha, hnext⟩ := mem_transitions ht
    exact ⟨hq, ha, next?_mem_states hnext, by rw [next_eq_ok hq ha, hnext]⟩
  initial := M.initial_mem
  finals := M.final_mem

end Dfa

/-- Building succeeds exactly for the legal descriptions, and an automaton that is built has the
parts that were given and obeys the data model. -/
theorem Description.builds_exactly_legal (d : Description) :
    ((∃ M, d.build = .ok M) ↔ d.Legal) ∧ ∀ M, d.build = .ok M → d.Describes M ∧ M.Sound := by
  constructor
  · rw [← defect?_eq_none_iff_legal]
    constructor
    · rintro ⟨M, hM⟩
      exact (build_eq_ok_iff.1 hM).1
    · intro h
      exact ⟨d.ofFit h, build_eq_ok_iff.2 ⟨h, rfl⟩⟩
  · intro M hM
    obtain ⟨h, rfl⟩ := build_eq_ok_iff.1 hM
    exact ⟨ofFit_describes h, Dfa.sound _⟩

end WordAutomata
