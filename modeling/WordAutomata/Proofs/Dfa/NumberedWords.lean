import WordAutomata.Language.Named
import WordAutomata.Proofs.Dfa.NumberedTable

/-!
# Words as rows of numbers

The words of a batch become rows of one width. Zero stands behind the end of a word, and it is the
number of a symbol as well; so it takes the lengths to read the words back. A symbol outside the
alphabet has a number of its own. Thus a row tells whether its word is one over the alphabet, and if
it is, which one.
-/
namespace WordAutomata

namespace NumberedDfa

/-- The word that a row spells within its length, unless a number there is that of no symbol. -/
def decodeRow (T : NumberedDfa) (row : List Nat) (length : Int) : Option Word :=
  (row.take length.toNat).mapM fun n => (T.symbols[n]?).map Datum.text

variable {M : Dfa} {a : Datum} {w : Word}

/-! ## One symbol -/

/-- A symbol has its place in the alphabet for a number. -/
theorem getElem?_encodeSymbol {s : String} (h : s ∈ M.alphabet.symbols) :
    (ofDfa M).symbols[(ofDfa M).encodeSymbol (.text s)]? = some s := by
  obtain ⟨j, hj, hs⟩ := Names.exists_index? h
  have hnumber : (ofDfa M).encodeSymbol (.text s) = j := by
    rw [encodeSymbol_text, hj, Option.getD_some]
  rw [hnumber]
  exact hs

theorem getElem?_symbols_size (M : Dfa) : (ofDfa M).symbols[M.alphabet.size]? = none :=
  List.getElem?_eq_none (Nat.le_refl _)

theorem encodeSymbol_eq_size_iff :
    (ofDfa M).encodeSymbol a = M.alphabet.size ↔ M.alphabet.isSymbol a = false := by
  refine ⟨fun h => ?_, encodeSymbol_of_not_isSymbol⟩
  rw [← Bool.not_eq_true]
  intro hs
  obtain ⟨s, rfl, hmem⟩ := Datum.isIn_iff.1 hs
  have hget := getElem?_encodeSymbol hmem
  rw [h, getElem?_symbols_size] at hget
  cases hget

/-- The number of a symbol is read back, and that of anything else is not. -/
theorem decode_encodeSymbol (M : Dfa) (a : Datum) :
    ((ofDfa M).symbols[(ofDfa M).encodeSymbol a]?).map Datum.text =
      if M.alphabet.isSymbol a = true then some a else none := by
  cases hs : M.alphabet.isSymbol a with
  | true =>
    obtain ⟨s, rfl, hmem⟩ := Datum.isIn_iff.1 hs
    rw [getElem?_encodeSymbol hmem]
    rfl
  | false =>
    rw [encodeSymbol_of_not_isSymbol hs, getElem?_symbols_size]
    rfl

/-! ## One word -/

theorem length_encodeWord (T : NumberedDfa) (w : Word) : (T.encodeWord w).length = w.length :=
  List.length_map _

/-- The numbers of a word are read back exactly if it is a word over the alphabet. -/
theorem mapM_decode_encodeWord (M : Dfa) (w : Word) :
    ((ofDfa M).encodeWord w).mapM (fun n => ((ofDfa M).symbols[n]?).map Datum.text) =
      if M.alphabet.isWord w = true then some w else none := by
  induction w with
  | nil => rfl
  | cons a w ih =>
    have hcons : M.alphabet.isWord (a :: w) = (M.alphabet.isSymbol a && M.alphabet.isWord w) := rfl
    show ((ofDfa M).encodeSymbol a :: (ofDfa M).encodeWord w).mapM _ = _
    rw [List.mapM_cons, decode_encodeSymbol, ih, hcons]
    cases M.alphabet.isSymbol a <;> cases M.alphabet.isWord w <;> rfl

/-- A word is one over the alphabet if none of its numbers is that of the invalid symbol. -/
theorem isWord_iff_encodeWord (M : Dfa) (w : Word) :
    M.alphabet.isWord w = true ↔ ∀ n ∈ (ofDfa M).encodeWord w, n ≠ M.alphabet.size := by
  simp [Alphabet.isWord, encodeWord, encodeSymbol_eq_size_iff]

/-! ## One row -/

theorem take_padTo {width : Nat} {numbers : List Nat} :
    (padTo width numbers).take numbers.length = numbers := List.take_left

theorem getElem?_padTo {width j : Nat} {numbers : List Nat} (h : j < numbers.length) :
    (padTo width numbers)[j]? = numbers[j]? := List.getElem?_append_left h

/-- Behind a word, its row has zeros. -/
theorem getElem?_padTo_behind {width j : Nat} {numbers : List Nat} (h : numbers.length ≤ j)
    (hwidth : j < width) : (padTo width numbers)[j]? = some 0 := by
  rw [padTo, List.getElem?_append_right h, List.getElem?_replicate, if_pos (by omega)]

/-- A row of a width that holds the numbers of a word. A symbol of the alphabet has its place in
increasing order for a number, and everything else has the number behind the last one. Behind the
word there are zeros. -/
structure HoldsWord (M : Dfa) (width : Nat) (w : Word) (row : List Nat) : Prop where
  length : row.length = width
  symbol : ∀ (j : Nat) (a : Datum), w[j]? = some a → ∃ n, row[j]? = some n ∧
    (n = M.alphabet.size ↔ M.alphabet.isSymbol a = false) ∧
    ∀ s, a = .text s → s ∈ M.alphabet.symbols → M.alphabet.toList[n]? = some s
  padding : ∀ j, w.length ≤ j → j < width → row[j]? = some 0

theorem holdsWord_padTo {width : Nat} (h : w.length ≤ width) :
    HoldsWord M width w (padTo width ((ofDfa M).encodeWord w)) where
  length := by
    rw [padTo, List.length_append, List.length_replicate, length_encodeWord]
    omega
  symbol := by
    intro j a ha
    have hget : ((ofDfa M).encodeWord w)[j]? = some ((ofDfa M).encodeSymbol a) := by
      rw [encodeWord, List.getElem?_map, ha]
      rfl
    refine ⟨_, ?_, encodeSymbol_eq_size_iff, ?_⟩
    · rw [getElem?_padTo (List.getElem?_eq_some_iff.1 hget).1, hget]
    · rintro s rfl hs
      exact getElem?_encodeSymbol hs
  padding := by
    intro j hj hwidth
    exact getElem?_padTo_behind ((length_encodeWord _ w).symm ▸ hj) hwidth

/-- Within the length of a word its row is read back exactly if it is a word over the alphabet. -/
theorem decodeRow_padTo (M : Dfa) (width : Nat) (w : Word) :
    (ofDfa M).decodeRow (padTo width ((ofDfa M).encodeWord w)) w.length =
      if M.alphabet.isWord w = true then some w else none := by
  rw [decodeRow, Int.toNat_natCast, ← length_encodeWord (ofDfa M) w, take_padTo,
    mapM_decode_encodeWord]

/-! ## Batches -/

/-- The largest of some lengths is one of them, or there is nothing above the start. -/
theorem foldl_max_eq (lengths : List Nat) (start : Nat) :
    lengths.foldl max start = start ∨ lengths.foldl max start ∈ lengths := by
  induction lengths generalizing start with
  | nil => exact .inl rfl
  | cons n lengths ih =>
    rw [List.foldl_cons]
    rcases ih (max start n) with h | h
    · rw [h]
      rcases Nat.le_total start n with hle | hle
      · rw [Nat.max_eq_right hle]
        exact .inr List.mem_cons_self
      · rw [Nat.max_eq_left hle]
        exact .inl rfl
    · exact .inr (List.mem_cons_of_mem n h)

/-- The words of a batch, each given by its text or its symbols, become rows of the length of the
longest and keep their lengths. Every entry is a column of the numbered table. The row and the length
of a word say whether it is a word over the alphabet, which are the words without the number of the
invalid symbol, and a word over the alphabet can be read back from them. A symbol can be any scalar;
a list or a record, which cannot be looked up, has the number of the invalid symbol as well. -/
theorem encoded_words_read_back (M : Dfa) {given : List Datum} {words : List Word}
    (hgiven : given.map Word.ofDatum? = words.map some) :
    let T := ofDfa M
    let b := T.encodeWords words
    b.rows.length = given.length ∧ b.lengths = words.map (fun w => (w.length : Int)) ∧
    (∀ w ∈ words, w.length ≤ b.width) ∧ (b.width = 0 ∨ ∃ w ∈ words, w.length = b.width) ∧
    ∀ (i : Nat) (d : Datum), given[i]? = some d → ∃ w row,
      Word.ofDatum? d = some w ∧ b.rows[i]? = some row ∧ b.lengths[i]? = some (w.length : Int) ∧
      HoldsWord M b.width w row ∧
      (∀ n ∈ row, ∀ state ≤ M.size, ∃ target, T.tryNext state n = some target) ∧
      T.decodeRow row w.length = (if M.alphabet.isWord w = true then some w else none) ∧
      (M.alphabet.isWord w = true ↔ ∀ n ∈ row.take w.length, n ≠ M.alphabet.size) := by
  intro T b
  have hcount : words.length = given.length := by
    have hlen := congrArg List.length hgiven
    rw [List.length_map, List.length_map] at hlen
    exact hlen.symm
  have hwidth : ∀ w ∈ words, w.length ≤ b.width := by
    intro w hw
    exact (le_foldl_max _ 0).2 _ (List.mem_map_of_mem hw)
  have hlongest : b.width = 0 ∨ ∃ w ∈ words, w.length = b.width := by
    rcases foldl_max_eq (words.map List.length) 0 with h | h
    · exact .inl h
    · exact .inr (List.mem_map.1 h)
  refine ⟨?_, rfl, hwidth, hlongest, ?_⟩
  · show (words.map _).length = given.length
    rw [List.length_map, hcount]
  intro i d hd
  obtain ⟨w, hw, hword⟩ : ∃ w, words[i]? = some w ∧ Word.ofDatum? d = some w := by
    have hget : (words.map some)[i]? = some (Word.ofDatum? d) := by
      rw [← hgiven, List.getElem?_map, hd, Option.map_some]
    rw [List.getElem?_map] at hget
    obtain ⟨w, hw, he⟩ := Option.map_eq_some_iff.1 hget
    exact ⟨w, hw, he.symm⟩
  have hrow : b.rows[i]? = some (padTo b.width (T.encodeWord w)) := by
    show (words.map fun w => padTo b.width (T.encodeWord w))[i]? = _
    rw [List.getElem?_map, hw, Option.map_some]
  have hlength : b.lengths[i]? = some (w.length : Int) := by
    show (words.map fun w => (w.length : Int))[i]? = _
    rw [List.getElem?_map, hw, Option.map_some]
  refine ⟨w, _, hword, hrow, hlength, holdsWord_padTo (hwidth w (List.mem_of_getElem? hw)), ?_,
    decodeRow_padTo M b.width w, ?_⟩
  · intro n hn state hstate
    have hle : n ≤ T.invalidSymbol :=
      (fits_encodeWords T words).number _ (List.mem_of_getElem? hrow) n hn
    exact ⟨_, ((closed_ofDfa M).tryNext_eq hstate hle).1⟩
  · rw [← length_encodeWord T w, take_padTo]
    exact isWord_iff_encodeWord M w

/-- A text of two symbols, the empty word, and symbols that are not all in the alphabet. -/
def mixedWords : List Datum := [.text "1,0", .list [], .list [.text "0", .int 3, .text "10"]]

/-- The first word is read back from the first row, and the last row shows a number of no symbol. -/
theorem mixedWords_read_back : ∃ M words, Language.build Language.parity = .ok M ∧
    mixedWords.map Word.ofDatum? = words.map some ∧
    (ofDfa M).encodeWords words = ⟨3, [[1, 0, 0], [0, 0, 0], [0, 2, 2]], [2, 0, 3]⟩ ∧
    (ofDfa M).decodeRow [1, 0, 0] 2 = some (Word.ofNames ["1", "0"]) ∧
    (ofDfa M).decodeRow [0, 2, 2] 3 = none := by
  have hfirst : Word.ofDatum? (.text "1,0") = some (Word.ofNames ["1", "0"]) := by decide +kernel
  have hgiven : mixedWords.map Word.ofDatum? =
      [Word.ofNames ["1", "0"], [], [.text "0", .int 3, .text "10"]].map some := by decide +kernel
  obtain ⟨M, hM, hbatch, hword, hother⟩ : ∃ M, Language.build Language.parity = .ok M ∧
      (ofDfa M).encodeWords [Word.ofNames ["1", "0"], [], [.text "0", .int 3, .text "10"]] =
        ⟨3, [[1, 0, 0], [0, 0, 0], [0, 2, 2]], [2, 0, 3]⟩ ∧
      M.alphabet.isWord (Word.ofNames ["1", "0"]) = true ∧
      M.alphabet.isWord [.text "0", .int 3, .text "10"] = false := ⟨_, rfl, rfl, rfl, rfl⟩
  obtain ⟨-, -, -, -, hrows⟩ := encoded_words_read_back M hgiven
  rw [hbatch] at hrows
  refine ⟨M, _, hM, hgiven, hbatch, ?_, ?_⟩
  · obtain ⟨w, row, hw, hrow, -, -, -, hdecode, -⟩ := hrows 0 (.text "1,0") rfl
    cases hfirst.symm.trans hw
    cases hrow
    rwa [if_pos hword] at hdecode
  · obtain ⟨w, row, hw, hrow, -, -, -, hdecode, -⟩ := hrows 2 _ rfl
    cases hw
    cases hrow
    rwa [if_neg (by simp [hother])] at hdecode

end NumberedDfa
end WordAutomata
