import WordAutomata.Proofs.Encoding
import WordAutomata.Proofs.Recognition.Failure
import WordAutomata.Proofs.Text.Lines

/-!
# Words listed on lines

A file of words has the encoding of a word on each line. Reading the lines and recognizing them
gives a report for every word, in order, as long as the encodings keep to their lines. The empty
word has a blank line, so a blank line is not skipped; only at the end of a file does the line feed
behind it make a difference.
-/
namespace WordAutomata

/-- The text that has the encodings of some words on its lines, each with a line feed. -/
def Word.listing (delimiter : String) (words : List (List String)) : String :=
  String.join (words.map fun names => encode delimiter names ++ "\n")

/-- The encoding of a word over an alphabet can stand on a line: it is not cut there and not
trimmed. -/
structure Alphabet.FitsLine (A : Alphabet) (delimiter : String) (names : List String) : Prop where
  spells : A.Spells names
  lineFeed_not_mem : '\n' ∉ (Word.encode delimiter names).toList
  not_return : (Word.encode delimiter names).toList.getLast? ≠ some '\r'

theorem Batching.accepted_shown (batching : Batching) (r : Report) :
    (batching.shown r).accepted = r.accepted := by
  cases batching <;> rfl

namespace Word

variable {A : Alphabet} {delimiter : String} {words front : List (List String)}
  {last : List String}

theorem toList_listing (delimiter : String) (words : List (List String)) :
    (listing delimiter words).toList =
      ((words.map (encode delimiter)).map String.toList).flatMap (· ++ ['\n']) := by
  simp [listing, String.toList_join, List.flatMap_map]

/-- Listed words and one more that has no line feed behind it yet. -/
theorem listing_concat (delimiter : String) (front : List (List String)) (last : List String) :
    listing delimiter (front ++ [last]) =
      (listing delimiter front ++ encode delimiter last) ++ "\n" := by
  refine String.toList_inj.1 ?_
  simp [toList_listing]

theorem lineFeed_not_mem_of_mem (h : ∀ names ∈ words, A.FitsLine delimiter names) :
    ∀ line ∈ (words.map (encode delimiter)).map String.toList, '\n' ∉ line := by
  rw [List.forall_mem_map, List.forall_mem_map]
  exact fun names hnames => (h names hnames).lineFeed_not_mem

/-- The lines of a listing are the encodings. -/
theorem lines_listing (h : ∀ names ∈ words, A.FitsLine delimiter names) :
    Text.lines (listing delimiter words) = words.map (encode delimiter) := by
  have hlines := Text.HasLines.nil.ended_append (lineFeed_not_mem_of_mem h)
  rw [List.append_nil, List.append_nil, ← toList_listing] at hlines
  refine hlines.lines_eq (List.forall_mem_map.2 fun names hnames => ?_)
  exact (h names hnames).not_return

theorem encode_eq_empty_iff_of_spells (hd : delimiter.toList ≠ []) {names : List String}
    (h : A.Spells names) : encode delimiter names = "" ↔ names = [] := by
  rw [← String.toList_inj, String.toList_empty, encode_eq_empty_iff hd, or_iff_left]
  rintro rfl
  exact A.symbol_ne_empty "" (h "" List.mem_cons_self) rfl

/-- The line of a word that is not empty goes without a line feed at the end of a listing. -/
theorem lines_listing_append (hd : delimiter.toList ≠ []) (hlast : last ≠ [])
    (h : ∀ names ∈ front ++ [last], A.FitsLine delimiter names) :
    Text.lines (listing delimiter front ++ encode delimiter last) =
      (front ++ [last]).map (encode delimiter) := by
  have hfront : ∀ names ∈ front, A.FitsLine delimiter names :=
    fun names hnames => h names (List.mem_append_left _ hnames)
  have hfit := h last (List.mem_append_right _ List.mem_cons_self)
  have hne : (encode delimiter last).toList ≠ [] := by
    intro hnil
    exact hlast ((encode_eq_empty_iff_of_spells hd hfit.spells).1 (String.toList_inj.1 hnil))
  have hlines := (Text.HasLines.last hfit.lineFeed_not_mem hne).ended_append
    (lineFeed_not_mem_of_mem hfront)
  rw [← toList_listing, ← String.toList_append] at hlines
  have hcut : ((front.map (encode delimiter)).map String.toList) ++ [(encode delimiter last).toList] =
      ((front ++ [last]).map (encode delimiter)).map String.toList := by simp
  rw [hcut] at hlines
  exact hlines.lines_eq (List.forall_mem_map.2 fun names hnames => (h names hnames).not_return)

end Word

namespace Dfa

/-- The encodings of words over the alphabet are recognized as the words. -/
theorem recognize_encodings (M : Dfa) {c : Char} (hc : ∀ a ∈ M.alphabet.symbols, c ∉ a.toList)
    {batching : Batching} (hbatching : batching.HoldsLine) {words : List (List String)}
    (hwords : ∀ names ∈ words, M.alphabet.Spells names) :
    M.recognize (String.singleton c) batching (words.map (Word.encode (String.singleton c))) =
      .ok ⟨words.map fun names => batching.shown
        (M.reportOn (Word.encode (String.singleton c) names) (.ofNames names)), none⟩ := by
  have hd : String.singleton c ≠ "" := by simp
  obtain ⟨word, hword⟩ := Word.exists_decode hd
  have hread : ∀ names ∈ words,
      word (Word.encode (String.singleton c) names) = .ofNames names := by
    intro names hnames
    have h := hword (Word.encode (String.singleton c) names)
    rw [Word.decode, (hwords names hnames).decodeNames_encode_singleton hc] at h
    exact (Except.ok.inj h).symm
  have hreports := List.map_congr_left fun names hnames =>
    congrArg (fun w => batching.shown (M.reportOn (Word.encode (String.singleton c) names) w))
      (hread names hnames)
  rw [M.recognize_eq_ok hword hbatching, List.map_map, ← hreports]
  rfl

/-- The words of a listing are recognized. -/
theorem recognize_listing (M : Dfa) {c : Char} (hc : ∀ a ∈ M.alphabet.symbols, c ∉ a.toList)
    {batching : Batching} (hbatching : batching.HoldsLine) {words : List (List String)}
    (hwords : ∀ names ∈ words, M.alphabet.FitsLine (String.singleton c) names) :
    M.recognize (String.singleton c) batching
        (Text.lines (Word.listing (String.singleton c) words)) =
      .ok ⟨words.map fun names => batching.shown
        (M.reportOn (Word.encode (String.singleton c) names) (.ofNames names)), none⟩ := by
  rw [Word.lines_listing hwords]
  exact M.recognize_encodings hc hbatching fun names hnames => (hwords names hnames).spells

/-- The last line feed of a listing can be left out without a change exactly if the last word is not
empty. -/
theorem recognize_listing_append_iff (M : Dfa) {c : Char}
    (hc : ∀ a ∈ M.alphabet.symbols, c ∉ a.toList) {batching : Batching}
    (hbatching : batching.HoldsLine) {front : List (List String)} {last : List String}
    (hwords : ∀ names ∈ front ++ [last], M.alphabet.FitsLine (String.singleton c) names) :
    M.recognize (String.singleton c) batching (Text.lines
        (Word.listing (String.singleton c) front ++ Word.encode (String.singleton c) last)) =
      M.recognize (String.singleton c) batching (Text.lines
        (Word.listing (String.singleton c) (front ++ [last]))) ↔ last ≠ [] := by
  constructor
  · -- A blank line without its line feed is no line: there is one report less.
    rintro h rfl
    have hfront : ∀ names ∈ front, M.alphabet.FitsLine (String.singleton c) names :=
      fun names hnames => hwords names (List.mem_append_left _ hnames)
    have hblank : Word.listing (String.singleton c) front ++ Word.encode (String.singleton c) [] =
        Word.listing (String.singleton c) front := String.append_empty
    have hless := M.recognize_listing hc hbatching hfront
    rw [← hblank] at hless
    have hreports := Except.ok.inj
      (hless.symm.trans (h.trans (M.recognize_listing hc hbatching hwords)))
    have hlength := congrArg List.length (congrArg Produced.items hreports)
    simp at hlength
  · intro hlast
    rw [Word.lines_listing_append (by simp) hlast hwords, Word.lines_listing hwords]

/-- With a character between the symbols that is in none of them, words over the alphabet are
recognized from a listing of their encodings: there is a report for every word, in order, with its
encoding for a line and with its acceptance. Only the empty word has a blank line. The last line
feed can be left out without a change exactly if the last word is not empty. -/
theorem listing_is_recognized (M : Dfa) (c : Char) (hc : ∀ a ∈ M.alphabet.symbols, c ∉ a.toList)
    (batching : Batching) (hbatching : batching.HoldsLine) (words : List (List String))
    (hwords : ∀ names ∈ words, M.alphabet.FitsLine (String.singleton c) names) :
    let delimiter := String.singleton c
    let recognized := fun text => M.recognize delimiter batching (Text.lines text)
    (∃ reports : List Report,
      recognized (Word.listing delimiter words) = .ok ⟨reports, none⟩ ∧
      reports.map Report.line = words.map (Word.encode delimiter) ∧
      reports.map Report.accepted = words.map fun names => M.accepts (.ofNames names)) ∧
    (∀ names ∈ words, Word.encode delimiter names = "" ↔ names = []) ∧
    ∀ front last, words = front ++ [last] →
      let short := Word.listing delimiter front ++ Word.encode delimiter last
      Word.listing delimiter words = short ++ "\n" ∧
      (recognized short = recognized (Word.listing delimiter words) ↔ last ≠ []) := by
  intro delimiter recognized
  have hd : delimiter.toList ≠ [] := by simp [delimiter]
  refine ⟨⟨_, M.recognize_listing hc hbatching hwords, ?_, ?_⟩, ?_, ?_⟩
  · rw [List.map_map]
    exact List.map_congr_left fun names _ => (batching.line_shown _).trans (M.line_reportOn _ _)
  · rw [List.map_map]
    exact List.map_congr_left fun names _ =>
      (batching.accepted_shown _).trans (M.accepted_reportOn _ _)
  · exact fun names hnames => Word.encode_eq_empty_iff_of_spells hd (hwords names hnames).spells
  · rintro front last rfl
    exact ⟨Word.listing_concat delimiter front last,
      M.recognize_listing_append_iff hc hbatching hwords⟩

/-- A carriage return between the symbols, and a blank line between two others: an odd number of
ones is found in the first word and in the third. -/
theorem carriage_return_listing_is_recognized :
    ∃ M, Language.build Language.parity = .ok M ∧
      (∀ a ∈ M.alphabet.symbols, '\r' ∉ a.toList) ∧ (Batching.batched 2).HoldsLine ∧
      (∀ names ∈ [["1", "0"], [], ["1"]], M.alphabet.FitsLine (String.singleton '\r') names) ∧
      ∃ reports : List Report,
        M.recognize "\r" (.batched 2) (Text.lines "1\r0\n\n1\n") = .ok ⟨reports, none⟩ ∧
        reports.map Report.line = ["1\r0", "", "1"] ∧
        reports.map Report.accepted = [true, false, true] := by
  obtain ⟨M, hM, hsymbols, haccepts⟩ : ∃ M, Language.build Language.parity = .ok M ∧
      M.alphabet.toList = ["0", "1"] ∧
      ([["1", "0"], [], ["1"]].map fun names => M.accepts (.ofNames names)) =
        [true, false, true] := ⟨_, rfl, by decide, by decide⟩
  have hmem : ∀ a, a ∈ M.alphabet.symbols ↔ a ∈ ["0", "1"] := fun a => by rw [← hsymbols]; rfl
  have hc : ∀ a ∈ M.alphabet.symbols, '\r' ∉ a.toList := by simp [hmem]
  have hwords : ∀ names ∈ [["1", "0"], [], ["1"]],
      M.alphabet.FitsLine (String.singleton '\r') names := by
    intro names hnames
    refine ⟨?_, ?_, ?_⟩
    · simp only [Alphabet.Spells, hmem]
      revert names
      decide
    · revert names
      decide
    · revert names
      decide
  have hsize : (Batching.batched 2).HoldsLine := Int.le_of_lt (by decide)
  obtain ⟨⟨reports, hreports, hlines, haccepted⟩, -, -⟩ :=
    M.listing_is_recognized '\r' hc (.batched 2) hsize [["1", "0"], [], ["1"]] hwords
  exact ⟨M, hM, hc, hsize, hwords, reports, hreports, hlines, haccepted.trans haccepts⟩

end Dfa
end WordAutomata
