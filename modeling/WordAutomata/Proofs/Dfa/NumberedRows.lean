import WordAutomata.Language.Named
import WordAutomata.Proofs.Dfa.Numbered

/-!
# Rows of a batch run on their own

A batch is run column by column, all rows at once, and the rows that have ended are looked up like
the others. Every row nevertheless ends where its own entries lead that stand before its length; of
these there are none if the length is negative, and it counts all entries if it is beyond the width.
The other rows, the entries behind the length and further columns make no difference.
-/
namespace WordAutomata

namespace Batch

/-- The entries of a row that count. -/
def counted (b : Batch) (row : List Nat) (length : Int) : List Nat :=
  row.take (min (max length 0) b.width).toNat

/-- The batch with more columns behind its own. -/
def widen (b : Batch) (count : Nat) (entries : List (List Nat)) : Batch where
  width := b.width + count
  rows := List.zipWith (· ++ ·) b.rows entries
  lengths := b.lengths

variable {b c : Batch} {row other more : List Nat} {length : Int} {count : Nat}
  {entries : List (List Nat)}

theorem counted_eq_take (b : Batch) (row : List Nat) (length : Int) :
    b.counted row length = row.take (min length.toNat b.width) := by
  have hcount : (min (max length 0) b.width).toNat = min length.toNat b.width := by omega
  rw [counted, hcount]

/-- Rows that agree before a length count for the same. -/
theorem counted_congr (hwidth : c.width = b.width)
    (hagree : ∀ k : Nat, (k : Int) < length → other[k]? = row[k]?) :
    c.counted other length = b.counted row length := by
  apply List.ext_getElem?
  intro k
  rw [counted, counted, hwidth, List.getElem?_take, List.getElem?_take]
  by_cases hk : k < (min (max length 0) b.width).toNat
  · rw [if_pos hk, if_pos hk]
    apply hagree
    omega
  · rw [if_neg hk, if_neg hk]

/-- Columns behind the length of a row do not count. -/
theorem counted_widen (hrow : row.length = b.width) (hlength : length ≤ b.width) :
    (b.widen count entries).counted (row ++ more) length = b.counted row length := by
  have hcount : (min (max length 0) (b.widen count entries).width).toNat =
      (min (max length 0) b.width).toNat := by
    show (min (max length 0) ((b.width + count : Nat) : Int)).toNat = _
    omega
  rw [counted, hcount, List.take_append_of_le_length (by omega), counted]

end Batch

namespace NumberedDfa

variable {T : NumberedDfa} {b : Batch} {i : Nat} {row : List Nat} {length : Int}

/-- A row ends where the entries lead that count. -/
theorem getElem?_runBatch (hb : b.Fits T) (hlengths : b.lengths.length = b.rows.length)
    (hrow : b.rows[i]? = some row) (hlength : b.lengths[i]? = some length) :
    (T.runBatch b)[i]? = some ((b.counted row length).foldl T.next T.initial) := by
  have hwidth : row.length = b.width := hb.width row (List.mem_of_getElem? hrow)
  have hzip : (b.rows.zip b.lengths)[i]? = some (row, length) :=
    List.getElem?_zip_eq_some.2 ⟨hrow, hlength⟩
  rw [runBatch_eq_map T b hlengths.symm, List.getElem?_map, hzip, Option.map_some,
    foldl_rowStep T row length T.initial b.width (by omega), Batch.counted_eq_take]

theorem length_runBatch (T : NumberedDfa) (hlengths : b.lengths.length = b.rows.length) :
    (T.runBatch b).length = b.rows.length := by
  rw [runBatch_eq_map T b hlengths.symm, List.length_map, List.length_zip, hlengths, Nat.min_self]

/-! ## Rows of integers -/

theorem fromEnd_natCast (count n : Nat) : fromEnd count (n : Int) = n := by
  have hn : ¬ (n : Int) < 0 := by omega
  rw [fromEnd, if_neg hn, Int.toNat_natCast]

theorem spread?_length {α : Type} (items : List α) : spread? items.length items = some items := by
  match items with
  | [] => rfl
  | [a] => rfl
  | a :: a' :: rest => exact if_pos rfl

theorem runBatch_of_width_eq_zero (T : NumberedDfa) (h : b.width = 0) :
    T.runBatch b = b.rows.map fun _ => T.initial := by
  rw [runBatch, h]
  rfl

/-- Rows of one width whose entries are given as integers are run as they are. -/
theorem batch_natCast (hb : b.Fits T) (hlengths : b.lengths.length = b.rows.length) :
    (T.batch (b.rows.map fun row => row.map Nat.cast) b.lengths).map T.runBatch =
      .ok (T.runBatch b) := by
  have hnumbered : (b.rows.map fun row => row.map Nat.cast).map
      (fun row => row.map (fromEnd (T.invalidSymbol + 1))) = b.rows := by
    simp [Function.comp_def, fromEnd_natCast]
  have hcount : (if b.rows.length = 1 then b.lengths.length else b.rows.length) =
      b.rows.length := by
    rw [hlengths, ite_self]
  have hrows : spread? b.rows.length b.rows = some b.rows := spread?_length _
  have hlens : spread? b.rows.length b.lengths = some b.lengths := hlengths ▸ spread?_length _
  simp only [batch, hnumbered, List.length_map, hcount, hrows, hlens, List.head?_map,
    Option.map_map, Function.comp_def]
  cases hfirst : b.rows.head? with
  | none =>
    -- Without rows the width cannot be seen, and there is nothing to run.
    have hnone : b.rows = [] := List.head?_eq_none_iff.1 hfirst
    have hends : T.runBatch b = [] := by
      rw [← List.length_eq_zero_iff, length_runBatch T hlengths, hnone, List.length_nil]
    rw [hends, hnone]
    rfl
  | some first =>
    have hlen : first.length = b.width := hb.width first (List.mem_of_head? hfirst)
    simp only [Option.map_some, Option.getD_some, hlen]
    by_cases hzero : b.width = 0
    · rw [if_pos hzero, runBatch_of_width_eq_zero T hzero]
      exact congrArg Except.ok (runBatch_of_width_eq_zero T rfl)
    · rw [if_neg hzero]
      rfl

/-! ## Rows among other rows -/

/-- A row of the wider batch begins with the entries that it had. -/
theorem getElem?_widen {count : Nat} {entries : List (List Nat)}
    (hentries : entries.length = b.rows.length) (hrow : b.rows[i]? = some row) :
    ∃ more, (b.widen count entries).rows[i]? = some (row ++ more) := by
  have hlt : i < entries.length := by
    rw [hentries]
    exact (List.getElem?_eq_some_iff.1 hrow).1
  refine ⟨entries[i], ?_⟩
  show (List.zipWith (· ++ ·) b.rows entries)[i]? = _
  rw [List.getElem?_zipWith, hrow, List.getElem?_eq_getElem hlt]

/-- In a batch of numbers of symbols no look-up misses, and a row ends where the entries lead that
stand before its length and before the width. So it ends there among any other rows, whatever stands
behind its length and with any columns behind a length within the width; and once its entries have
led to the sink, it ends in the sink. Given as integers, the batch is run as it is. -/
theorem rows_run_on_their_own (M : Dfa) {b : Batch} (hb : b.Fits (ofDfa M))
    (hlengths : b.lengths.length = b.rows.length) :
    let T := ofDfa M
    let ends := T.runBatch b
    T.tryRun b = some ends ∧
    (T.batch (b.rows.map fun row => row.map Nat.cast) b.lengths).map T.runBatch = .ok ends ∧
    ends.length = b.rows.length ∧
    ∀ (i : Nat) (row : List Nat) (length : Int),
      b.rows[i]? = some row → b.lengths[i]? = some length →
      (∃ n, ends[i]? = some n ∧ (b.counted row length).foldlM T.tryNext T.initial = some n) ∧
      (∀ (c : Batch) (j : Nat) (other : List Nat), c.Fits T →
        c.lengths.length = c.rows.length → c.width = b.width →
        c.rows[j]? = some other → c.lengths[j]? = some length →
        (∀ k : Nat, (k : Int) < length → other[k]? = row[k]?) →
        (T.runBatch c)[j]? = ends[i]?) ∧
      (∀ (count : Nat) (entries : List (List Nat)), (b.widen count entries).Fits T →
        entries.length = b.rows.length → length ≤ b.width →
        (T.runBatch (b.widen count entries))[i]? = ends[i]?) ∧
      ∀ seen rest : List Nat, b.counted row length = seen ++ rest →
        seen.foldlM T.tryNext T.initial = some T.sink → ends[i]? = some T.sink := by
  intro T ends
  have hT : T.Closed := closed_ofDfa M
  refine ⟨(hT.tryRun_eq hb).1, batch_natCast hb hlengths, length_runBatch T hlengths, ?_⟩
  intro i row length hrow hlength
  have hmem : row ∈ b.rows := List.mem_of_getElem? hrow
  have hend : ends[i]? = some ((b.counted row length).foldl T.next T.initial) :=
    getElem?_runBatch hb hlengths hrow hlength
  have hnumber : ∀ n ∈ b.counted row length, n ≤ T.invalidSymbol := by
    intro n hn
    exact hb.number row hmem n (List.mem_of_mem_take hn)
  refine ⟨⟨_, hend, hT.foldlM_tryNext hnumber hT.initial⟩, ?_, ?_, ?_⟩
  · intro c j other hc hsame hwidth hother hlen hagree
    rw [getElem?_runBatch hc hsame hother hlen, Batch.counted_congr hwidth hagree, hend]
  · intro count entries hwide hentries hle
    obtain ⟨more, hmore⟩ := getElem?_widen hentries hrow
    have hsame : (b.widen count entries).lengths.length = (b.widen count entries).rows.length := by
      show b.lengths.length = (List.zipWith (· ++ ·) b.rows entries).length
      rw [List.length_zipWith, hentries, Nat.min_self, hlengths]
    rw [getElem?_runBatch hwide hsame hmore hlength,
      Batch.counted_widen (hb.width row hmem) hle, hend]
  · intro seen rest hsplit hsink
    have hseen : ∀ n ∈ seen, n ≤ T.invalidSymbol := by
      intro n hn
      exact hnumber n (hsplit ▸ List.mem_append_left rest hn)
    rw [hT.foldlM_tryNext hseen hT.initial] at hsink
    rw [hend, hsplit, List.foldl_append, Option.some.inj hsink]
    exact congrArg some (foldl_next_sink rest)

/-- Two rows of three columns, with a length beyond the width and a negative one. -/
def lengthsOutside : Batch where
  width := 3
  rows := [[0, 1, 2], [0, 0, 1]]
  lengths := [5, -1]

/-- All of the first row counts, and leads to the sink; nothing of the second does. -/
theorem lengthsOutside_run_on_their_own :
    ∃ M, Language.build Language.repeat01 = .ok M ∧ lengthsOutside.Fits (ofDfa M) ∧
      lengthsOutside.lengths.length = lengthsOutside.rows.length ∧
      (ofDfa M).runBatch lengthsOutside = [2, 0] ∧
      [0, 1, 2].foldlM (ofDfa M).tryNext (ofDfa M).initial = some 2 ∧
      [].foldlM (ofDfa M).tryNext (ofDfa M).initial = some 0 := by
  obtain ⟨M, hM, hsymbols, hends⟩ : ∃ M, Language.build Language.repeat01 = .ok M ∧
      (ofDfa M).invalidSymbol = 2 ∧ (ofDfa M).runBatch lengthsOutside = [2, 0] :=
    ⟨_, rfl, rfl, rfl⟩
  have hfits : lengthsOutside.Fits (ofDfa M) := by
    constructor
    · simp [lengthsOutside]
    · simp [lengthsOutside, hsymbols]
  have hlengths : lengthsOutside.lengths.length = lengthsOutside.rows.length := rfl
  obtain ⟨-, -, -, hrows⟩ := rows_run_on_their_own M hfits hlengths
  obtain ⟨⟨n, hn, hfold⟩, -⟩ := hrows 0 [0, 1, 2] 5 rfl rfl
  obtain ⟨⟨m, hm, hnone⟩, -⟩ := hrows 1 [0, 0, 1] (-1) rfl rfl
  rw [hends] at hn hm
  cases hn
  cases hm
  exact ⟨M, hM, hfits, hlengths, hends, hfold, hnone⟩

end NumberedDfa
end WordAutomata
