import WordAutomata.Proofs.Dfa.NumberedTable
import WordAutomata.Proofs.Dfa.Run

/-!
# Numbered automata simulate runs

A batch is run column by column; the columns are exchanged here for rows, each of which is a fold of
the table over the numbers that count. The fold over the numbers of a word ends in the number of the
state in which its run ends, or in the sink.
-/
namespace WordAutomata

/-- The number of the state in which a run ended that read its whole word, otherwise the sink. -/
def Dfa.label (M : Dfa) : Configuration → Nat
  | .accepted q => M.number q
  | .rejected .notAccepting q _ _ => M.number q
  | _ => M.size

namespace NumberedDfa

variable {M : Dfa}

/-! ## One word -/

theorem foldl_next_sink (numbers : List Nat) : numbers.foldl (ofDfa M).next M.size = M.size := by
  induction numbers with
  | nil => rfl
  | cons j numbers ih => rw [List.foldl_cons, next_sink, ih]

/-- One number follows one move: to the number of the state, and to the sink if the run stops. -/
theorem next_encodeSymbol {i : Nat} {q : String} (hi : M.states.toList[i]? = some q) (a : Datum) :
    (ofDfa M).next i ((ofDfa M).encodeSymbol a) =
      match M.move q a with
      | .into r => M.number r
      | _ => M.size := by
  cases hs : M.alphabet.isSymbol a with
  | false =>
    rw [encodeSymbol_of_not_isSymbol hs, next_invalidSymbol hi, Dfa.move_of_isSymbol_eq_false hs]
  | true =>
    obtain ⟨b, rfl, hb⟩ := Datum.isIn_iff.1 hs
    obtain ⟨j, hj, hjb⟩ := Names.exists_index? hb
    have he : (ofDfa M).encodeSymbol (.text b) = j := by
      rw [encodeSymbol_text, hj]
      rfl
    rw [he, next_symbol hi hjb]
    simp only [Dfa.move, if_pos hb]
    cases M.next? q b <;> rfl

/-- The numbers of a word lead to the label of the configuration in which it ends. -/
theorem foldl_next_encodeWord (w : Word) :
    ∀ (i position : Nat) (q : String), M.states.toList[i]? = some q →
      ((ofDfa M).encodeWord w).foldl (ofDfa M).next i = M.label (M.ending q position w) := by
  induction w with
  | nil =>
    intro i position q hi
    rw [Dfa.ending]
    by_cases hf : q ∈ M.finals
    · rw [if_pos hf]
      exact (Dfa.number_eq hi).symm
    · rw [if_neg hf]
      exact (Dfa.number_eq hi).symm
  | cons a w ih =>
    intro i position q hi
    rw [encodeWord, List.map_cons, List.foldl_cons, next_encodeSymbol hi, Dfa.ending]
    cases hm : M.move q a with
    | invalid => exact foldl_next_sink _
    | dead => exact foldl_next_sink _
    | into r =>
      obtain ⟨j, hj, hn, -⟩ := Dfa.exists_number (Dfa.mem_states_of_move hm)
      simp only [hn]
      exact ih j (position + 1) r hj

/-! ## Columns and rows -/

/-- Folding over columns, each for all rows at once, is folding over the columns for every row. -/
theorem foldl_zip_map {σ ι κ : Type} (f : κ → σ → ι → σ) (columns : List κ) (rows : List ι) :
    ∀ current : List σ, current.length = rows.length →
      columns.foldl (fun states c => (states.zip rows).map fun p => f c p.1 p.2) current =
        (current.zip rows).map fun p => columns.foldl (fun s c => f c s p.2) p.1 := by
  induction columns with
  | nil =>
    intro current h
    simp only [List.foldl_nil]
    exact (List.map_fst_zip (Nat.le_of_eq h)).symm
  | cons c columns ih =>
    intro current h
    have hrows : (current.zip rows).map Prod.snd = rows := List.map_snd_zip (Nat.le_of_eq h.symm)
    have hzip : ((current.zip rows).map fun p => f c p.1 p.2).zip
        ((current.zip rows).map Prod.snd) = (current.zip rows).map fun p => (f c p.1 p.2, p.2) :=
      List.zip_map'
    rw [hrows] at hzip
    rw [List.foldl_cons, ih _ (by simp [h]), hzip, List.map_map]
    rfl

/-- The state of a row after one more column. -/
def rowStep (T : NumberedDfa) (column : Nat) (state : Nat) (row : List Nat × Int) : Nat :=
  if (column : Int) < row.2 then T.next state ((row.1[column]?).getD 0) else state

theorem runBatch_eq_map (T : NumberedDfa) (b : Batch) (h : b.rows.length = b.lengths.length) :
    T.runBatch b = (b.rows.zip b.lengths).map fun row =>
      (List.range b.width).foldl (fun state column => T.rowStep column state row) T.initial := by
  have hlen : (b.rows.map fun _ => T.initial).length = (b.rows.zip b.lengths).length := by
    simp [h]
  have hconst :
      (b.rows.map fun _ => T.initial) = (b.rows.zip b.lengths).map fun _ => T.initial := by
    rw [List.map_const', List.map_const', List.length_zip, ← h, Nat.min_self]
  have hzip : ((b.rows.zip b.lengths).map fun _ => T.initial).zip
      ((b.rows.zip b.lengths).map id) = (b.rows.zip b.lengths).map fun row => (T.initial, row) :=
    List.zip_map'
  rw [List.map_id] at hzip
  refine (foldl_zip_map T.rowStep _ (b.rows.zip b.lengths) _ hlen).trans ?_
  rw [hconst, hzip, List.map_map]
  rfl

/-- A row ends where the numbers within its length lead; the columns behind them change nothing. -/
theorem foldl_rowStep (T : NumberedDfa) (row : List Nat) (length : Int) (state : Nat) :
    ∀ width ≤ row.length,
      (List.range width).foldl (fun state column => T.rowStep column state (row, length)) state =
        (row.take (min length.toNat width)).foldl T.next state := by
  intro width
  induction width with
  | zero => simp
  | succ width ih =>
    intro hw
    have hget : row[width]? = some row[width] := List.getElem?_eq_getElem (by omega)
    rw [List.range_succ, List.foldl_append, ih (by omega), List.foldl_cons, List.foldl_nil, rowStep]
    by_cases hlt : (width : Int) < length
    · rw [if_pos hlt, hget, Nat.min_eq_right (by omega), Nat.min_eq_right (by omega),
        List.take_add_one, List.foldl_append, hget]
      rfl
    · -- Padding: the word has ended, so neither side reads the column.
      rw [if_neg hlt, Nat.min_eq_left (by omega), Nat.min_eq_left (by omega)]

/-! ## Batches of words -/

/-- Running encoded words gives the labels of their configurations, whatever else is in the
batch. -/
theorem runBatch_encodeWords (M : Dfa) (words : List Word) :
    (ofDfa M).runBatch ((ofDfa M).encodeWords words) = words.map fun w => M.label (M.run w) := by
  rw [runBatch_eq_map _ _ (by simp [encodeWords])]
  simp only [encodeWords]
  rw [List.zip_map', List.map_map]
  refine List.map_congr_left ?_
  intro w hw
  have hwidth : w.length ≤ (words.map List.length).foldl max 0 :=
    (le_foldl_max _ 0).2 _ (List.mem_map_of_mem hw)
  have hlen : ((ofDfa M).encodeWord w).length = w.length := List.length_map _
  obtain ⟨i, hi, hn, -⟩ := Dfa.exists_number M.initial_mem
  have hinitial : (ofDfa M).initial = i := hn
  rw [Function.comp_apply, foldl_rowStep _ _ _ _ _ (by simp [padTo, hlen]; omega),
    Int.toNat_natCast, Nat.min_eq_left hwidth, padTo, List.take_left' hlen, hinitial,
    foldl_next_encodeWord w i 0 _ hi, ← Dfa.run_eq_ending]

/-- The label of an outcome is accepting exactly if the outcome is. -/
theorem accepting_label {w : Word} {q : String} {p : Nat} {c : Configuration} (hq : q ∈ M.states)
    (h : M.Outcome w q p c) : ((ofDfa M).accepting[M.label c]?).getD false = c.isAccepted := by
  obtain ⟨i, hi, hn, -⟩ := Dfa.exists_number hq
  cases h with
  | accepted hp hf => simp [Dfa.label, hn, accepting_state hi, hf, Configuration.isAccepted]
  | notAccepting hp hf => simp [Dfa.label, hn, accepting_state hi, hf, Configuration.isAccepted]
  | _ => simp [Dfa.label, accepting_sink, Configuration.isAccepted]

theorem accepts_eq_map (M : Dfa) (words : List Word) :
    (ofDfa M).accepts words = words.map M.accepts := by
  rw [accepts, runBatch_encodeWords, List.map_map]
  refine List.map_congr_left ?_
  intro w _
  obtain ⟨q, hq, -, hout⟩ := M.outcome_run w
  exact accepting_label hq hout

/-- No look-up misses when a batch of encoded words is run. It gives for each word, whatever the
others are, the place of the state in which its run ends, and the number behind the last state
exactly if the run is stopped at a symbol. So the batch is accepted word by word. The symbols of the
words are scalars, as for runs. -/
theorem batch_simulates_runs (M : Dfa) (words : List Word) :
    let T := ofDfa M
    let ends := T.runBatch (T.encodeWords words)
    T.tryRun (T.encodeWords words) = some ends ∧
    T.tryAccepts words = some (T.accepts words) ∧ T.accepts words = words.map M.accepts ∧
    ends.length = words.length ∧
    ∀ (i : Nat) (w : Word), words[i]? = some w → ∃ n, ends[i]? = some n ∧
      (∀ q, M.run w = .accepted q → M.states.toList[n]? = some q) ∧
      (∀ q p a, M.run w = .rejected .notAccepting q p a → M.states.toList[n]? = some q) ∧
      (n = M.size ↔ ∃ q p a, M.run w = .rejected .invalidSymbol q p a ∨
        M.run w = .rejected .deadTransition q p a) := by
  intro T ends
  have hends : ends = words.map fun w => M.label (M.run w) := runBatch_encodeWords M words
  refine ⟨((closed_ofDfa M).tryRun_eq (fits_encodeWords _ words)).1, tryAccepts_ofDfa M words,
    accepts_eq_map M words, by rw [hends, List.length_map], ?_⟩
  intro i w hw
  refine ⟨M.label (M.run w), by rw [hends, List.getElem?_map, hw]; rfl, ?_⟩
  obtain ⟨q, hq, -, hout⟩ := M.outcome_run w
  obtain ⟨j, hj, hn, hlt⟩ := Dfa.exists_number hq
  have hne : j ≠ M.size := by omega
  generalize M.run w = c at hout ⊢
  cases hout with
  | accepted hp hf => simp [Dfa.label, hn, hj, hne]
  | notAccepting hp hf => simp [Dfa.label, hn, hj, hne]
  | invalidSymbol hp ha => simp [Dfa.label]
  | deadTransition hp ha hnext => simp [Dfa.label]

end NumberedDfa
end WordAutomata
