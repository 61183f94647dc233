import WordAutomata.Dfa.Numbered
import WordAutomata.Proofs.Dfa.Table
import WordAutomata.Proofs.Except

/-!
# Tables of numbers

The numbered table follows the transition table, with the sink for everything that stops a run.
Every state and the sink have a full row, and no entry leads out of the table. A batch whose numbers
are those of symbols is therefore run without a look-up that misses, although the words that have
ended are looked up as well.
-/
namespace WordAutomata

namespace Names

theorem index?_eq_some_iff {s : Names} {a : String} {i : Nat} :
    s.index? a = some i ↔ s.toList[i]? = some a := by
  rw [index?, List.idxOf?_eq_some_iff, List.getElem?_eq_some_iff]
  refine exists_congr fun h => ⟨And.left, fun he => ⟨he, ?_⟩⟩
  intro j hj hsame
  have hlt := List.pairwise_iff_getElem.1 s.increasing j i (by omega) h hj
  exact String.lt_irrefl _ (hsame.trans he.symm ▸ hlt)

theorem index?_eq_none_iff {s : Names} {a : String} : s.index? a = none ↔ a ∉ s :=
  List.idxOf?_eq_none_iff

theorem exists_index? {s : Names} {a : String} (h : a ∈ s) :
    ∃ i, s.index? a = some i ∧ s.toList[i]? = some a := by
  obtain ⟨i, hi⟩ := List.mem_iff_getElem?.1 h
  exact ⟨i, index?_eq_some_iff.2 hi, hi⟩

/-- A member has one number. -/
theorem index_unique {s : Names} {a : String} {i j : Nat} (hi : s.toList[i]? = some a)
    (hj : s.toList[j]? = some a) : i = j :=
  Option.some.inj ((index?_eq_some_iff.2 hi).symm.trans (index?_eq_some_iff.2 hj))

/-- A number of a member, or else the number of members. -/
theorem index?_bind_getD_le (s : Names) (target : Option String) :
    (target.bind s.index?).getD s.size ≤ s.size := by
  cases h : target.bind s.index? with
  | none => exact Nat.le_refl _
  | some i =>
    obtain ⟨a, -, ha⟩ := Option.bind_eq_some_iff.1 h
    exact Nat.le_of_lt (List.getElem?_eq_some_iff.1 (index?_eq_some_iff.1 ha)).1

end Names

/-- The number of a state, and that of the sink for a name that is no state. -/
def Dfa.number (M : Dfa) (q : String) : Nat := (M.states.index? q).getD M.size

theorem Dfa.number_eq {M : Dfa} {q : String} {i : Nat} (h : M.states.toList[i]? = some q) :
    M.number q = i := by
  rw [number, Names.index?_eq_some_iff.2 h]
  rfl

theorem Dfa.exists_number {M : Dfa} {q : String} (h : q ∈ M.states) :
    ∃ i, M.states.toList[i]? = some q ∧ M.number q = i ∧ i < M.size := by
  obtain ⟨i, -, hi⟩ := Names.exists_index? h
  exact ⟨i, hi, number_eq hi, (List.getElem?_eq_some_iff.1 hi).1⟩

/-! ## Folds that can miss -/

section Fold

variable {σ ι : Type} {f : σ → ι → Option σ}

/-- If no step of a fold misses from where something holds of the items that are done, and it still
holds with the next item, then the fold does not miss and it holds of all items in the end. -/
theorem exists_foldlM (holds : List ι → σ → Prop) {items : List ι}
    (hstep : ∀ done s x, holds done s → x ∈ items →
      ∃ next, f s x = some next ∧ holds (done ++ [x]) next) {s : σ} (h : holds [] s) :
    ∃ last, items.foldlM f s = some last ∧ holds items last := by
  suffices hrest : ∀ rest done s, (∀ x ∈ rest, x ∈ items) → holds done s →
      ∃ last, rest.foldlM f s = some last ∧ holds (done ++ rest) last from
    hrest items [] s (fun _ hx => hx) h
  intro rest
  induction rest with
  | nil =>
    intro done s _ hdone
    exact ⟨s, rfl, (List.append_nil done).symm ▸ hdone⟩
  | cons x rest ih =>
    intro done s hmem hdone
    obtain ⟨next, hnext, hholds⟩ := hstep done s x hdone (hmem x List.mem_cons_self)
    obtain ⟨last, hlast, hend⟩ :=
      ih (done ++ [x]) next (fun y hy => hmem y (List.mem_cons_of_mem x hy)) hholds
    refine ⟨last, ?_, ?_⟩
    · rw [List.foldlM_cons, hnext]
      exact hlast
    · rwa [List.append_assoc] at hend

/-- A fold that does not miss from where something holds, and keeps it, is a fold of what the steps
give. -/
theorem foldlM_eq_some_foldl {g : σ → ι → σ} (holds : σ → Prop) {items : List ι}
    (hstep : ∀ s, holds s → ∀ x ∈ items, f s x = some (g s x) ∧ holds (g s x)) {s : σ}
    (h : holds s) : items.foldlM f s = some (items.foldl g s) ∧ holds (items.foldl g s) := by
  have hrun : ∃ last, items.foldlM f s = some last ∧ last = items.foldl g s ∧ holds last := by
    apply exists_foldlM fun done t => t = done.foldl g s ∧ holds t
    · intro done t x hdone hx
      obtain ⟨hnext, hkeeps⟩ := hstep t hdone.2 x hx
      refine ⟨g t x, hnext, ?_, hkeeps⟩
      rw [List.foldl_append, ← hdone.1]
      rfl
    · exact ⟨rfl, h⟩
  obtain ⟨last, hlast, hfold, hholds⟩ := hrun
  exact hfold ▸ ⟨hlast, hholds⟩

end Fold

/-- A batch whose rows have its width and hold numbers of symbols. -/
structure Batch.Fits (T : NumberedDfa) (b : Batch) : Prop where
  width : ∀ row ∈ b.rows, row.length = b.width
  number : ∀ row ∈ b.rows, ∀ n ∈ row, n ≤ T.invalidSymbol

namespace NumberedDfa

variable {M : Dfa}

theorem table_state {i : Nat} {q : String} (h : M.states.toList[i]? = some q) :
    (ofDfa M).table[i]? =
      some (M.alphabet.toList.map (fun a => ((M.next? q a).bind M.states.index?).getD M.size) ++
        [M.size]) := by
  have hlt : i < M.states.toList.length := (List.getElem?_eq_some_iff.1 h).1
  simp only [ofDfa]
  rw [M.table_eq_tabulate, TransitionTable.tabulate, List.getElem?_append_left (by simpa using hlt)]
  simp only [List.map_map, List.getElem?_map, h, Option.map_some, Function.comp_apply, numberedRow]
  rfl

/-- The entry of a state and a symbol is the number of the target, or the sink. -/
theorem next_symbol {i j : Nat} {q a : String} (hi : M.states.toList[i]? = some q)
    (hj : M.alphabet.toList[j]? = some a) :
    (ofDfa M).next i j = ((M.next? q a).bind M.states.index?).getD M.size := by
  have hlt : j < M.alphabet.toList.length := (List.getElem?_eq_some_iff.1 hj).1
  simp only [next, table_state hi, Option.bind_some]
  rw [List.getElem?_append_left (by simpa using hlt), List.getElem?_map, hj]
  rfl

theorem next_invalidSymbol {i : Nat} {q : String} (hi : M.states.toList[i]? = some q) :
    (ofDfa M).next i M.alphabet.size = M.size := by
  simp only [next, table_state hi, Option.bind_some]
  rw [List.getElem?_append_right (by simp [Alphabet.size, Names.size, Alphabet.toList])]
  simp [Alphabet.size, Names.size, Alphabet.toList]

theorem table_sink : (ofDfa M).table[M.size]? =
    some (List.replicate (M.alphabet.size + 1) M.size) := by
  have hlen : (M.table.map fun row => numberedRow M.states row.2).length = M.size := by
    rw [List.length_map, ← List.length_map Prod.fst, M.table_states]
    rfl
  simp only [ofDfa]
  rw [List.getElem?_append_right (by omega), hlen]
  simp

/-- The sink is never left. -/
theorem next_sink (j : Nat) : (ofDfa M).next M.size j = M.size := by
  rw [next, table_sink, Option.bind_some]
  by_cases hj : j < M.alphabet.size + 1
  · simp [hj]
  · rw [List.getElem?_eq_none (by simpa using hj)]
    rfl

theorem accepting_state {i : Nat} {q : String} (h : M.states.toList[i]? = some q) :
    (ofDfa M).accepting[i]? = some (decide (q ∈ M.finals)) := by
  have hlt : i < M.states.toList.length := (List.getElem?_eq_some_iff.1 h).1
  simp only [ofDfa]
  rw [List.getElem?_append_left (by simpa using hlt), List.getElem?_map, h]
  rfl

theorem accepting_sink : (ofDfa M).accepting[M.size]? = some false := by
  simp only [ofDfa]
  rw [List.getElem?_append_right (by simp [Dfa.size, Names.size])]
  simp [Dfa.size, Names.size]

/-! ## Look-ups that can miss -/

/-- Every state and the sink have a full row of states or the sink. -/
structure Closed (T : NumberedDfa) : Prop where
  initial : T.initial ≤ T.sink
  row : ∀ state ≤ T.sink, ∃ targets, T.table[state]? = some targets ∧
    targets.length = T.invalidSymbol + 1 ∧ ∀ target ∈ targets, target ≤ T.sink
  accepting : T.accepting.length = T.sink + 1

/-- The target of a state, unless the state or the symbol is not in the table. -/
def tryNext (T : NumberedDfa) (state symbol : Nat) : Option Nat :=
  (T.table[state]?).bind fun targets => targets[symbol]?

/-- The states after one more column. Words that have ended are looked up like the others. -/
def tryAdvance (T : NumberedDfa) (b : Batch) (column : Nat) (current : List Nat) :
    Option (List Nat) :=
  (current.zip (b.rows.zip b.lengths)).mapM fun (state, row, length) =>
    ((row[column]?).bind (T.tryNext state)).map fun target =>
      if (column : Int) < length then target else state

/-- The states in which the words of a batch end, unless a look-up misses. -/
def tryRun (T : NumberedDfa) (b : Batch) : Option (List Nat) :=
  (List.range b.width).foldlM (fun current column => T.tryAdvance b column current)
    (b.rows.map fun _ => T.initial)

/-- Whether each of the words is accepted, unless a look-up misses. -/
def tryAccepts (T : NumberedDfa) (words : List Word) : Option (List Bool) :=
  (T.tryRun (T.encodeWords words)).bind fun ends => ends.mapM fun state => T.accepting[state]?

section Closed

variable {T : NumberedDfa} {b : Batch}

theorem Closed.tryNext_eq (hT : T.Closed) {state symbol : Nat} (hs : state ≤ T.sink)
    (ha : symbol ≤ T.invalidSymbol) :
    T.tryNext state symbol = some (T.next state symbol) ∧ T.next state symbol ≤ T.sink := by
  obtain ⟨targets, hrow, hlen, htarget⟩ := hT.row state hs
  have hlt : symbol < targets.length := by omega
  have hget : targets[symbol]? = some targets[symbol] := List.getElem?_eq_getElem hlt
  rw [tryNext, next, hrow, Option.bind_some, hget]
  exact ⟨rfl, htarget _ (List.getElem_mem hlt)⟩

/-- One column: no look-up misses, and the states stay inside the table. -/
theorem Closed.tryAdvance_eq (hT : T.Closed) (hb : b.Fits T) {column : Nat} (hc : column < b.width)
    {current : List Nat} (hs : ∀ state ∈ current, state ≤ T.sink) :
    T.tryAdvance b column current = some (T.advance b column current) ∧
      ∀ state ∈ T.advance b column current, state ≤ T.sink := by
  have hentry : ∀ x ∈ current.zip (b.rows.zip b.lengths), x.1 ≤ T.sink ∧
      ∃ symbol, x.2.1[column]? = some symbol ∧ symbol ≤ T.invalidSymbol := by
    rintro ⟨state, row, length⟩ hx
    obtain ⟨hstate, hrest⟩ := List.of_mem_zip hx
    have hrow := (List.of_mem_zip hrest).1
    have hlt : column < row.length := by
      rw [hb.width row hrow]
      exact hc
    exact ⟨hs state hstate, row[column], List.getElem?_eq_getElem hlt,
      hb.number row hrow _ (List.getElem_mem hlt)⟩
  constructor
  · refine mapM_eq_some_map ?_
    rintro ⟨state, row, length⟩ hx
    obtain ⟨hstate, symbol, hsymbol, hle⟩ := hentry _ hx
    simp only at hstate hsymbol
    simp only [hsymbol, Option.getD_some, Option.bind_some, (hT.tryNext_eq hstate hle).1,
      Option.map_some]
  · intro t ht
    obtain ⟨⟨state, row, length⟩, hx, rfl⟩ := List.mem_map.1 ht
    obtain ⟨hstate, symbol, hsymbol, hle⟩ := hentry _ hx
    simp only at hstate hsymbol
    simp only [hsymbol, Option.getD_some]
    split
    · exact (hT.tryNext_eq hstate hle).2
    · exact hstate

theorem Closed.foldlM_tryAdvance (hT : T.Closed) (hb : b.Fits T) {columns : List Nat}
    (hcolumns : ∀ c ∈ columns, c < b.width) {current : List Nat}
    (hs : ∀ state ∈ current, state ≤ T.sink) :
    columns.foldlM (fun current c => T.tryAdvance b c current) current =
        some (columns.foldl (fun current c => T.advance b c current) current) ∧
      ∀ state ∈ columns.foldl (fun current c => T.advance b c current) current, state ≤ T.sink := by
  refine foldlM_eq_some_foldl (fun current => ∀ state ∈ current, state ≤ T.sink) ?_ hs
  intro current hcurrent c hc
  exact hT.tryAdvance_eq hb (hcolumns c hc) hcurrent

/-- Along numbers of symbols no look-up misses. -/
theorem Closed.foldlM_tryNext (hT : T.Closed) {numbers : List Nat}
    (hnumbers : ∀ n ∈ numbers, n ≤ T.invalidSymbol) {state : Nat} (hs : state ≤ T.sink) :
    numbers.foldlM T.tryNext state = some (numbers.foldl T.next state) := by
  refine (foldlM_eq_some_foldl (fun state => state ≤ T.sink) ?_ hs).1
  intro state hstate n hn
  exact hT.tryNext_eq hstate (hnumbers n hn)

/-- In a batch of numbers of symbols no look-up misses, and no word leaves the table. -/
theorem Closed.tryRun_eq (hT : T.Closed) (hb : b.Fits T) :
    T.tryRun b = some (T.runBatch b) ∧ ∀ state ∈ T.runBatch b, state ≤ T.sink := by
  refine hT.foldlM_tryAdvance hb (fun c hc => List.mem_range.1 hc) ?_
  intro state hstate
  obtain ⟨row, -, rfl⟩ := List.mem_map.1 hstate
  exact hT.initial

end Closed

theorem le_foldl_max (lengths : List Nat) (start : Nat) :
    start ≤ lengths.foldl max start ∧ ∀ n ∈ lengths, n ≤ lengths.foldl max start := by
  induction lengths generalizing start with
  | nil => simp
  | cons m lengths ih =>
    obtain ⟨hstart, hall⟩ := ih (max start m)
    rw [List.foldl_cons]
    refine ⟨by omega, ?_⟩
    intro n hn
    rcases List.mem_cons.1 hn with rfl | hn
    · omega
    · exact hall n hn

theorem encodeSymbol_le (T : NumberedDfa) (a : Datum) : T.encodeSymbol a ≤ T.invalidSymbol := by
  cases a with
  | text a =>
    rw [encodeSymbol]
    cases h : T.symbols.idxOf? a with
    | none => exact Nat.le_refl _
    | some i =>
      obtain ⟨hi, -⟩ := List.idxOf?_eq_some_iff.1 h
      exact Nat.le_of_lt hi
  | _ => exact Nat.le_refl _

theorem encodeSymbol_text (a : String) : (ofDfa M).encodeSymbol (.text a) =
    (M.alphabet.symbols.index? a).getD M.alphabet.size := rfl

/-- Whatever is no symbol has the number behind those of the symbols. -/
theorem encodeSymbol_of_not_isSymbol {a : Datum} (h : M.alphabet.isSymbol a = false) :
    (ofDfa M).encodeSymbol a = M.alphabet.size := by
  cases a with
  | text a =>
    rw [encodeSymbol_text, Names.index?_eq_none_iff.2 (Alphabet.not_mem_of_isSymbol h),
      Option.getD_none]
  | _ => rfl

/-- Every list of words is encoded by numbers of symbols in rows of one width. -/
theorem fits_encodeWords (T : NumberedDfa) (words : List Word) : (T.encodeWords words).Fits T := by
  constructor
  · intro row hrow
    obtain ⟨w, hw, rfl⟩ := List.mem_map.1 hrow
    have hle : w.length ≤ (words.map List.length).foldl max 0 :=
      (le_foldl_max _ 0).2 _ (List.mem_map_of_mem hw)
    simp only [padTo, encodeWord, encodeWords, List.length_append, List.length_map,
      List.length_replicate]
    omega
  · intro row hrow n hn
    obtain ⟨w, hw, rfl⟩ := List.mem_map.1 hrow
    rw [padTo, List.mem_append] at hn
    rcases hn with hn | hn
    · obtain ⟨a, -, rfl⟩ := List.mem_map.1 hn
      exact T.encodeSymbol_le a
    · rw [(List.mem_replicate.1 hn).2]
      exact Nat.zero_le _

theorem closed_ofDfa (M : Dfa) : (ofDfa M).Closed where
  initial := by
    obtain ⟨i, -, hn, hlt⟩ := Dfa.exists_number M.initial_mem
    have hinitial : (ofDfa M).initial = i := hn
    rw [hinitial]
    exact Nat.le_of_lt hlt
  row := by
    intro state hs
    rcases Nat.lt_or_eq_of_le hs with hlt | rfl
    · refine ⟨_, table_state (List.getElem?_eq_getElem hlt), ?_, ?_⟩
      · rw [List.length_append, List.length_map]
        rfl
      · intro target ht
        rw [List.mem_append, List.mem_singleton] at ht
        rcases ht with ht | rfl
        · obtain ⟨a, -, rfl⟩ := List.mem_map.1 ht
          exact Names.index?_bind_getD_le M.states _
        · exact Nat.le_refl _
    · refine ⟨_, table_sink, List.length_replicate, ?_⟩
      intro target ht
      exact Nat.le_of_eq (List.mem_replicate.1 ht).2
  accepting := by
    simp only [ofDfa, List.length_append, List.length_map, List.length_singleton]
    rfl

theorem tryAccepts_ofDfa (M : Dfa) (words : List Word) :
    (ofDfa M).tryAccepts words = some ((ofDfa M).accepts words) := by
  have hT := closed_ofDfa M
  obtain ⟨hrun, hle⟩ := hT.tryRun_eq (fits_encodeWords _ words)
  rw [tryAccepts, hrun]
  refine mapM_eq_some_map ?_
  intro state hstate
  have hlt : state < (ofDfa M).accepting.length := by
    rw [hT.accepting]
    exact Nat.lt_succ_of_le (hle state hstate)
  rw [List.getElem?_eq_getElem hlt]
  rfl

end NumberedDfa
end WordAutomata
