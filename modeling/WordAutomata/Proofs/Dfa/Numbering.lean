import WordAutomata.Proofs.Dfa.NumberedTable

/-!
# What the numbers of an automaton say

The numbered table can be written entry by entry. It begins with the sink everywhere; then every
transition that is not dead puts the number of its target in its place, which is never in the row of
the sink or the column of the invalid symbol. The final states are marked in the same way. What is
written says everything about the automaton, so automata with the same numbers are the same.
-/
namespace WordAutomata

namespace NumberedDfa

/-! ## Entries of a table -/

/-- The entry in a place of a table, if there is one. -/
def entryAt? (table : List (List Nat)) (i j : Nat) : Option Nat :=
  (table[i]?).bind fun row => row[j]?

/-- A table with another entry in a place, if there is one. -/
def writeAt? (table : List (List Nat)) (i j value : Nat) : Option (List (List Nat)) :=
  (table[i]?).bind fun row =>
    if j < row.length then some (table.set i (row.set j value)) else none

/-- A place that has an entry can be written, and no other place changes. -/
theorem exists_writeAt? {table : List (List Nat)} {i j : Nat} (value : Nat)
    (h : (entryAt? table i j).isSome) :
    ∃ written, writeAt? table i j value = some written ∧ written.length = table.length ∧
      ∀ k l, entryAt? written k l = if k = i ∧ l = j then some value else entryAt? table k l := by
  obtain ⟨old, hold⟩ := Option.isSome_iff_exists.1 h
  obtain ⟨row, hrow, hentry⟩ := Option.bind_eq_some_iff.1 hold
  have hi : i < table.length := (List.getElem?_eq_some_iff.1 hrow).1
  have hj : j < row.length := (List.getElem?_eq_some_iff.1 hentry).1
  refine ⟨table.set i (row.set j value), ?_, List.length_set, ?_⟩
  · rw [writeAt?, hrow, Option.bind_some, if_pos hj]
  · intro k l
    by_cases hk : k = i
    · subst hk
      rw [entryAt?, List.getElem?_set_self hi, Option.bind_some]
      by_cases hl : l = j
      · subst hl
        rw [List.getElem?_set_self hj, if_pos ⟨rfl, rfl⟩]
      · rw [List.getElem?_set_ne fun he => hl he.symm, if_neg fun he => hl he.2, entryAt?, hrow,
          Option.bind_some]
    · rw [entryAt?, List.getElem?_set_ne fun he => hk he.symm, if_neg fun he => hk he.1, entryAt?]

/-- Tables with the same number of rows are equal if their entries are. -/
theorem eq_of_entryAt?_eq {table other : List (List Nat)} (hrows : table.length = other.length)
    (h : ∀ i j, entryAt? table i j = entryAt? other i j) : table = other := by
  apply List.ext_getElem hrows
  intro i hi hi'
  apply List.ext_getElem?
  intro j
  have hij := h i j
  rwa [entryAt?, entryAt?, List.getElem?_eq_getElem hi, List.getElem?_eq_getElem hi'] at hij

/-- Nothing stands outside a table with rows of one length. -/
theorem entryAt?_eq_none {table : List (List Nat)} {columns i j : Nat}
    (hrow : ∀ row ∈ table, row.length = columns) (h : ¬ (i < table.length ∧ j < columns)) :
    entryAt? table i j = none := by
  rw [entryAt?, Option.bind_eq_none_iff]
  intro row hi
  have hlt : i < table.length := (List.getElem?_eq_some_iff.1 hi).1
  have hlen : row.length = columns := hrow row (List.mem_of_getElem? hi)
  apply List.getElem?_eq_none
  omega

/-! ## The numbered table -/

variable {M : Dfa} {i j : Nat}

theorem length_table (M : Dfa) : (ofDfa M).table.length = M.size + 1 := by
  have hrows : M.table.length = M.size := by
    rw [← List.length_map Prod.fst, M.table_states]
    rfl
  simp [ofDfa, hrows]

theorem row_of_mem_table {row : List Nat} (h : row ∈ (ofDfa M).table) :
    row.length = M.alphabet.size + 1 ∧ ∀ n ∈ row, n ≤ M.size := by
  obtain ⟨i, hi⟩ := List.mem_iff_getElem?.1 h
  have hlt : i < M.size + 1 := length_table M ▸ (List.getElem?_eq_some_iff.1 hi).1
  obtain ⟨targets, htargets, hlength, hle⟩ := (closed_ofDfa M).row i (Nat.le_of_lt_succ hlt)
  obtain rfl : row = targets := Option.some.inj (hi.symm.trans htargets)
  exact ⟨hlength, hle⟩

theorem tryNext_symbol {q a : String} (hi : M.states.toList[i]? = some q)
    (hj : M.alphabet.toList[j]? = some a) :
    (ofDfa M).tryNext i j = some (((M.next? q a).bind M.states.index?).getD M.size) := by
  have hle : i ≤ M.size := Nat.le_of_lt (List.getElem?_eq_some_iff.1 hi).1
  have hle' : j ≤ M.alphabet.size := Nat.le_of_lt (List.getElem?_eq_some_iff.1 hj).1
  rw [((closed_ofDfa M).tryNext_eq hle hle').1, next_symbol hi hj]

theorem tryNext_invalidSymbol (hi : i ≤ M.size) :
    (ofDfa M).tryNext i M.alphabet.size = some M.size := by
  refine ((closed_ofDfa M).tryNext_eq hi (Nat.le_refl _)).1.trans (congrArg some ?_)
  rcases Nat.lt_or_eq_of_le hi with hlt | rfl
  · exact next_invalidSymbol (List.getElem?_eq_getElem hlt)
  · exact next_sink _

theorem tryNext_sink (hj : j ≤ M.alphabet.size) :
    (ofDfa M).tryNext M.size j = some M.size :=
  ((closed_ofDfa M).tryNext_eq (Nat.le_refl _) hj).1.trans (congrArg some (next_sink j))

end NumberedDfa

namespace Dfa

open NumberedDfa (entryAt? writeAt? exists_writeAt? eq_of_entryAt?_eq
  entryAt?_eq_none ofDfa)

/-! ## Writing the table -/

/-- The table in which every entry is the sink. -/
def blankTable (M : Dfa) : List (List Nat) :=
  List.replicate (M.size + 1) (List.replicate (M.alphabet.size + 1) M.size)

/-- The table with the number of a transition's target in its place, unless one of its names has no
number or there is no such place. -/
def tryEnter (M : Dfa) (table : List (List Nat)) (t : Transition) : Option (List (List Nat)) := do
  let i ← M.states.index? t.source
  let j ← M.alphabet.symbols.index? t.symbol
  let target ← M.states.index? t.target
  writeAt? table i j target

/-- The place of a transition is in the row of its source and the column of its symbol. -/
def Places (M : Dfa) (t : Transition) (i j : Nat) : Prop :=
  M.states.toList[i]? = some t.source ∧ M.alphabet.toList[j]? = some t.symbol

instance (M : Dfa) (t : Transition) (i j : Nat) : Decidable (M.Places t i j) :=
  inferInstanceAs (Decidable (_ ∧ _))

/-- A table into which some transitions have been entered and nothing else. -/
structure Entered (M : Dfa) (entered : List Transition) (table : List (List Nat)) : Prop where
  rows : table.length = M.size + 1
  entry : ∀ i j, entryAt? table i j =
    if ∃ t ∈ entered, M.Places t i j then (ofDfa M).tryNext i j else entryAt? M.blankTable i j

variable {M : Dfa} {i j : Nat} {entered : List Transition} {table : List (List Nat)}
  {t : Transition}

theorem entryAt?_blankTable (hi : i ≤ M.size) (hj : j ≤ M.alphabet.size) :
    entryAt? M.blankTable i j = some M.size := by
  rw [entryAt?, blankTable, List.getElem?_replicate, if_pos (Nat.lt_succ_of_le hi),
    Option.bind_some, List.getElem?_replicate, if_pos (Nat.lt_succ_of_le hj)]

theorem entered_nil (M : Dfa) : M.Entered [] M.blankTable where
  rows := List.length_replicate
  entry := by simp

/-- A transition is in one place only. -/
theorem places_iff (h : M.Places t i j) (k l : Nat) : M.Places t k l ↔ k = i ∧ l = j := by
  constructor
  · intro hkl
    have hk : k = i := M.states.index_unique hkl.1 h.1
    have hl : l = j := M.alphabet.symbols.index_unique hkl.2 h.2
    exact ⟨hk, hl⟩
  · rintro ⟨rfl, rfl⟩
    exact h

/-- One transition more finds its place, and is the only one to change there. -/
theorem Entered.exists_tryEnter (h : M.Entered entered table) (ht : t ∈ M.transitions) :
    ∃ written, M.tryEnter table t = some written ∧ M.Entered (entered ++ [t]) written := by
  obtain ⟨hsource, hsymbol, hnext⟩ := mem_transitions ht
  obtain ⟨i, hi, hq⟩ := Names.exists_index? hsource
  obtain ⟨j, hj, ha⟩ := Names.exists_index? hsymbol
  obtain ⟨n, hn, -⟩ := Names.exists_index? (next?_mem_states hnext)
  have hplaces : M.Places t i j := ⟨hq, ha⟩
  have hvalue : (ofDfa M).tryNext i j = some n := by
    rw [NumberedDfa.tryNext_symbol hq ha, hnext, Option.bind_some, hn, Option.getD_some]
  have hplace : (entryAt? table i j).isSome := by
    rw [h.entry]
    split
    · rw [hvalue]
      rfl
    · rw [entryAt?_blankTable (Nat.le_of_lt (List.getElem?_eq_some_iff.1 hq).1)
        (Nat.le_of_lt (List.getElem?_eq_some_iff.1 ha).1)]
      rfl
  obtain ⟨written, hwritten, hlength, hentry⟩ := exists_writeAt? n hplace
  refine ⟨written, ?_, hlength.trans h.rows, ?_⟩
  · simp only [tryEnter, hi, hj, hn, hwritten, Option.bind_eq_bind, Option.bind_some]
  · intro k l
    rw [hentry, h.entry]
    by_cases hkl : k = i ∧ l = j
    · obtain ⟨rfl, rfl⟩ := hkl
      have hlast : ∃ u ∈ entered ++ [t], M.Places u k l :=
        ⟨t, List.mem_append_right entered List.mem_cons_self, hplaces⟩
      rw [if_pos ⟨rfl, rfl⟩, if_pos hlast, hvalue]
    · have hother : ¬ M.Places t k l := fun hp => hkl ((places_iff hplaces k l).1 hp)
      simp [hkl, hother]

/-- Where no transition leads on, the numbered table has the sink. -/
theorem tryNext_of_not_places (h : ¬ ∃ t ∈ M.transitions, M.Places t i j) :
    (ofDfa M).tryNext i j = entryAt? M.blankTable i j := by
  by_cases hin : i < M.size + 1 ∧ j < M.alphabet.size + 1
  · have hi : i ≤ M.size := Nat.le_of_lt_succ hin.1
    have hj : j ≤ M.alphabet.size := Nat.le_of_lt_succ hin.2
    rw [entryAt?_blankTable hi hj]
    rcases Nat.lt_or_eq_of_le hi with hlt | rfl
    · rcases Nat.lt_or_eq_of_le hj with hlt' | rfl
      · -- A state and a symbol: a transition that leads on would be placed here.
        have hq : M.states.toList[i]? = some M.states.toList[i] := List.getElem?_eq_getElem hlt
        have ha : M.alphabet.toList[j]? = some M.alphabet.toList[j] := List.getElem?_eq_getElem hlt'
        have hdead : M.next? M.states.toList[i] M.alphabet.toList[j] = none := by
          rw [Option.eq_none_iff_forall_ne_some]
          intro r hr
          exact h ⟨_, mem_transitions_of_next? hr, hq, ha⟩
        rw [NumberedDfa.tryNext_symbol hq ha, hdead]
        rfl
      · exact NumberedDfa.tryNext_invalidSymbol hi
    · exact NumberedDfa.tryNext_sink hj
  · have hblank : ∀ row ∈ M.blankTable, row.length = M.alphabet.size + 1 := by
      intro row hrow
      rw [(List.mem_replicate.1 hrow).2, List.length_replicate]
    have hlen : M.blankTable.length = M.size + 1 := List.length_replicate
    rw [entryAt?_eq_none hblank (hlen ▸ hin)]
    exact entryAt?_eq_none (fun row hrow => (NumberedDfa.row_of_mem_table hrow).1)
      (NumberedDfa.length_table M ▸ hin)

/-- When all transitions have been entered, the table is the numbered one. -/
theorem Entered.eq_table (h : M.Entered M.transitions table) : table = (ofDfa M).table := by
  apply eq_of_entryAt?_eq
  · rw [h.rows, NumberedDfa.length_table]
  · intro i j
    rw [h.entry]
    split
    · rfl
    · rename_i hnone
      exact (tryNext_of_not_places hnone).symm

theorem foldlM_tryEnter (M : Dfa) :
    M.transitions.foldlM M.tryEnter M.blankTable = some (ofDfa M).table := by
  obtain ⟨table, htable, hentered⟩ := exists_foldlM M.Entered
    (fun _ _ _ h ht => h.exists_tryEnter ht) (entered_nil M)
  rw [htable, Entered.eq_table hentered]

/-! ## Marking the final states -/

/-- The marks with that of a state set, unless it has no number or there is no such mark. -/
def tryMark (M : Dfa) (marks : List Bool) (q : String) : Option (List Bool) := do
  let i ← M.states.index? q
  if i < marks.length then some (marks.set i true) else none

/-- Marks of which those of some states are set and no other. -/
structure Marked (M : Dfa) (marked : List String) (marks : List Bool) : Prop where
  length : marks.length = M.size + 1
  mark : ∀ i ≤ M.size, marks[i]? = some (decide (∃ q ∈ marked, M.states.toList[i]? = some q))

theorem marked_nil (M : Dfa) : M.Marked [] (List.replicate (M.size + 1) false) where
  length := List.length_replicate
  mark := by
    intro i hi
    rw [List.getElem?_replicate, if_pos (Nat.lt_succ_of_le hi)]
    simp

theorem Marked.exists_tryMark {marked : List String} {marks : List Bool} {q : String}
    (h : M.Marked marked marks) (hq : q ∈ M.states) :
    ∃ next, M.tryMark marks q = some next ∧ M.Marked (marked ++ [q]) next := by
  obtain ⟨i, hi, hget⟩ := Names.exists_index? hq
  have hlt : i < M.size := (List.getElem?_eq_some_iff.1 hget).1
  have hmark : i < marks.length := by
    rw [h.length]
    omega
  refine ⟨marks.set i true, ?_, List.length_set.trans h.length, ?_⟩
  · simp only [tryMark, hi, Option.bind_eq_bind, Option.bind_some, if_pos hmark]
  · intro k hk
    by_cases hki : k = i
    · subst hki
      rw [List.getElem?_set_self hmark]
      simp [hget]
    · have hother : M.states.toList[k]? ≠ some q := by
        intro he
        exact hki (M.states.index_unique he hget)
      rw [List.getElem?_set_ne fun he => hki he.symm, h.mark k hk]
      simp [hother]

/-- When all final states have been marked, the marks are those of the numbered automaton. -/
theorem Marked.eq_accepting {finals : List String} {marks : List Bool} (h : M.Marked finals marks)
    (hfinals : ∀ q, q ∈ finals ↔ q ∈ M.finals) : marks = (ofDfa M).accepting := by
  have hlength : marks.length = (ofDfa M).accepting.length :=
    h.length.trans (NumberedDfa.closed_ofDfa M).accepting.symm
  apply List.ext_getElem?
  intro i
  rcases Nat.lt_trichotomy i M.size with hlt | rfl | hgt
  · have hq : M.states.toList[i]? = some M.states.toList[i] := List.getElem?_eq_getElem hlt
    rw [h.mark i (Nat.le_of_lt hlt), NumberedDfa.accepting_state hq, hq]
    simp [hfinals]
  · have hnone : M.states.toList[M.size]? = none := List.getElem?_eq_none (Nat.le_refl _)
    rw [h.mark M.size (Nat.le_refl _), NumberedDfa.accepting_sink, hnone]
    simp
  · have hout : marks.length ≤ i := h.length ▸ hgt
    rw [List.getElem?_eq_none hout, List.getElem?_eq_none (hlength ▸ hout)]

/-- The final states are marked in whatever order they come. -/
theorem foldlM_tryMark {finals : List String} (hfinals : ∀ q, q ∈ finals ↔ q ∈ M.finals) :
    finals.foldlM M.tryMark (List.replicate (M.size + 1) false) = some (ofDfa M).accepting := by
  obtain ⟨marks, hmarks, hmarked⟩ := exists_foldlM M.Marked
    (fun _ _ q h hq => h.exists_tryMark (M.final_mem q ((hfinals q).1 hq))) (marked_nil M)
  rw [hmarks, Marked.eq_accepting hmarked hfinals]

/-- The numbered automaton, written entry by entry with the final states in some order, unless a
name has no number or a place is missing. -/
def tryNumbered (M : Dfa) (finals : List String) : Option NumberedDfa := do
  let table ← M.transitions.foldlM M.tryEnter M.blankTable
  let accepting ← finals.foldlM M.tryMark (List.replicate (M.size + 1) false)
  let initial ← M.states.index? M.initial
  some { states := M.states.toList, symbols := M.alphabet.toList, table, accepting, initial }

/-- No name lacks a number and no place is missing. -/
theorem tryNumbered_eq (M : Dfa) {finals : List String} (hfinals : ∀ q, q ∈ finals ↔ q ∈ M.finals) :
    M.tryNumbered finals = some (ofDfa M) := by
  obtain ⟨i, hi, -⟩ := Names.exists_index? M.initial_mem
  have hinitial : (ofDfa M).initial = i := by
    show (M.states.index? M.initial).getD M.size = i
    rw [hi, Option.getD_some]
  simp only [tryNumbered, foldlM_tryEnter, foldlM_tryMark hfinals, hi, Option.bind_eq_bind,
    Option.bind_some, ← hinitial]
  rfl

end Dfa

namespace NumberedDfa

/-! ## What the numbers say -/

/-- The numbers tell everything about an automaton. Its states and symbols stand in increasing order.
Every state and the sink have an entry for every symbol and the invalid one: the number of the target,
or the sink where the transition is dead or does not exist. The final states are marked, and the
initial one is given by its number. -/
structure Encodes (T : NumberedDfa) (M : Dfa) : Prop where
  states_increasing : T.states.Pairwise (· < ·)
  mem_states : ∀ q, q ∈ T.states ↔ q ∈ M.states
  symbols_increasing : T.symbols.Pairwise (· < ·)
  mem_symbols : ∀ a, a ∈ T.symbols ↔ a ∈ M.alphabet.symbols
  rows : T.table.length = M.size + 1
  row : ∀ row ∈ T.table, row.length = M.alphabet.size + 1 ∧ ∀ n ∈ row, n ≤ M.size
  entry : ∀ (i j : Nat) (q a : String), T.states[i]? = some q → T.symbols[j]? = some a →
    ∃ target n, M.next (.text q) (.text a) = .ok target ∧ T.tryNext i j = some n ∧
      (n = M.size ↔ target = none) ∧ ∀ r, target = some r → T.states[n]? = some r
  sink_row : ∀ j ≤ M.alphabet.size, T.tryNext M.size j = some M.size
  invalid_column : ∀ i ≤ M.size, T.tryNext i M.alphabet.size = some M.size
  marks : T.accepting.length = M.size + 1
  mark : ∀ (i : Nat) (q : String), T.states[i]? = some q →
    T.accepting[i]? = some (decide (q ∈ M.finals))
  sink_mark : T.accepting[M.size]? = some false
  initial : T.states[T.initial]? = some M.initial

theorem encodes_ofDfa (M : Dfa) : (ofDfa M).Encodes M where
  states_increasing := M.states.increasing
  mem_states := fun _ => Iff.rfl
  symbols_increasing := M.alphabet.symbols.increasing
  mem_symbols := fun _ => Iff.rfl
  rows := length_table M
  row := fun _ => row_of_mem_table
  entry := by
    intro i j q a hi hj
    have hq : q ∈ M.states := List.mem_of_getElem? hi
    have ha : a ∈ M.alphabet.symbols := List.mem_of_getElem? hj
    refine ⟨_, _, Dfa.next_eq_ok hq ha, tryNext_symbol hi hj, ?_⟩
    cases hnext : M.next? q a with
    | none => simp
    | some r =>
      obtain ⟨n, hn, hr⟩ := Names.exists_index? (Dfa.next?_mem_states hnext)
      have hlt : n < M.size := (List.getElem?_eq_some_iff.1 hr).1
      rw [Option.bind_some, hn, Option.getD_some]
      refine ⟨iff_of_false (Nat.ne_of_lt hlt) (Option.some_ne_none r), ?_⟩
      intro target htarget
      exact Option.some.inj htarget ▸ hr
  sink_row := fun _ => tryNext_sink
  invalid_column := fun _ => tryNext_invalidSymbol
  marks := (closed_ofDfa M).accepting
  mark := fun _ _ => accepting_state
  sink_mark := accepting_sink
  initial := by
    obtain ⟨i, hi, hn, -⟩ := Dfa.exists_number M.initial_mem
    have hinitial : (ofDfa M).initial = i := hn
    rw [hinitial]
    exact hi

section Unique

variable {T : NumberedDfa} {M N : Dfa} {i j : Nat} {q a : String}

theorem Encodes.exists_target (h : T.Encodes M) (hi : T.states[i]? = some q)
    (hj : T.symbols[j]? = some a) : ∃ n, T.tryNext i j = some n ∧
      (n = M.size ↔ M.next? q a = none) ∧ ∀ r, M.next? q a = some r → T.states[n]? = some r := by
  have hq : q ∈ M.states := (h.mem_states q).1 (List.mem_of_getElem? hi)
  have ha : a ∈ M.alphabet.symbols := (h.mem_symbols a).1 (List.mem_of_getElem? hj)
  obtain ⟨target, n, hnext, hn, hdead, hlive⟩ := h.entry i j q a hi hj
  obtain rfl : M.next? q a = target := Except.ok.inj ((Dfa.next_eq_ok hq ha).symm.trans hnext)
  exact ⟨n, hn, hdead, hlive⟩

/-- The entries give back the targets. -/
theorem Encodes.next?_eq (hM : T.Encodes M) (hN : T.Encodes N) (hsize : M.size = N.size)
    (hi : T.states[i]? = some q) (hj : T.symbols[j]? = some a) : M.next? q a = N.next? q a := by
  obtain ⟨n, hn, hdead, hlive⟩ := hM.exists_target hi hj
  obtain ⟨m, hm, hdead', hlive'⟩ := hN.exists_target hi hj
  obtain rfl : n = m := Option.some.inj (hn.symm.trans hm)
  cases hr : M.next? q a with
  | none => exact (hdead'.1 (hsize ▸ hdead.2 hr)).symm
  | some r =>
    cases hr' : N.next? q a with
    | none =>
      rw [hdead.1 (hsize.trans (hdead'.2 hr').symm).symm] at hr
      cases hr
    | some r' => rw [← hlive r hr, hlive' r' hr']

/-- The marks give back the final states. -/
theorem Encodes.mem_finals_iff (hM : T.Encodes M) (hN : T.Encodes N) (hq : q ∈ M.states) :
    q ∈ M.finals ↔ q ∈ N.finals := by
  obtain ⟨i, hi⟩ := List.mem_iff_getElem?.1 ((hM.mem_states q).2 hq)
  have hmark := (hM.mark i q hi).symm.trans (hN.mark i q hi)
  exact decide_eq_decide.1 (Option.some.inj hmark)

/-- Numbers encode one automaton only. -/
theorem Encodes.unique (hM : T.Encodes M) (hN : T.Encodes N) : M = N := by
  have hstates : M.states = N.states :=
    Names.eq_of_mem_iff fun q => (hM.mem_states q).symm.trans (hN.mem_states q)
  have hsymbols : M.alphabet.symbols = N.alphabet.symbols :=
    Names.eq_of_mem_iff fun a => (hM.mem_symbols a).symm.trans (hN.mem_symbols a)
  have hsize : M.size = N.size := congrArg Names.size hstates
  have hfinals : ∀ q, q ∈ M.finals ↔ q ∈ N.finals := by
    intro q
    constructor
    · intro hq
      exact (hM.mem_finals_iff hN (M.final_mem q hq)).1 hq
    · intro hq
      exact (hM.mem_finals_iff hN (hstates ▸ N.final_mem q hq)).2 hq
  apply Dfa.eq_of_next?_eq hstates (Alphabet.ext hsymbols) ?_
    (Option.some.inj (hM.initial.symm.trans hN.initial)) (Names.eq_of_mem_iff hfinals)
  intro q hq a ha
  obtain ⟨i, hi⟩ := List.mem_iff_getElem?.1 ((hM.mem_states q).2 hq)
  obtain ⟨j, hj⟩ := List.mem_iff_getElem?.1 ((hM.mem_symbols a).2 ha)
  exact hM.next?_eq hN hsize hi hj

end Unique

/-- Writing the numbers entry by entry gives the numbered automaton, in which the numbers say
everything about the automaton. So two automata have the same numbers exactly if they have the same
states, symbols, transitions, initial and final states. -/
theorem numbers_tell_automata_apart (M : Dfa) :
    (∀ finals : List String, (∀ q, q ∈ finals ↔ q ∈ M.finals) →
      M.tryNumbered finals = some (ofDfa M)) ∧
    (ofDfa M).Encodes M ∧
    ∀ N : Dfa, ofDfa M = ofDfa N ↔ M.states = N.states ∧ M.alphabet = N.alphabet ∧
      M.table = N.table ∧ M.initial = N.initial ∧ M.finals = N.finals := by
  refine ⟨fun finals hfinals => M.tryNumbered_eq hfinals, encodes_ofDfa M, fun N => ⟨?_, ?_⟩⟩
  · intro h
    have hN : (ofDfa M).Encodes N := h ▸ encodes_ofDfa N
    obtain rfl : M = N := (encodes_ofDfa M).unique hN
    exact ⟨rfl, rfl, rfl, rfl, rfl⟩
  · rintro ⟨hstates, halphabet, htable, hinitial, hfinals⟩
    exact congrArg ofDfa (Dfa.ext hstates halphabet htable hinitial hfinals)

end NumberedDfa
end WordAutomata
