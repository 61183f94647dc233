import WordAutomata.Proofs.Dfa.Numbered
import WordAutomata.Proofs.Dfa.Trail
import WordAutomata.Proofs.Except
import WordAutomata.Proofs.Text.Delimited

/-!
# Words and their texts

Every text is the encoding of the names that it is decoded to. Names are found again in their
encoding exactly if they can be told apart there; a single empty name cannot, because the empty text
is the empty word. Symbols of an alphabet are not empty and contain no comma, so a text encodes at
most one word over an alphabet, and an automaton makes no difference between the word and the text.
-/
namespace WordAutomata

/-! ## Decoding what was encoded -/

namespace Word

variable {delimiter text : String} {names : List String}

theorem toList_encode (delimiter : String) (names : List String) :
    (encode delimiter names).toList = Text.join delimiter.toList (names.map String.toList) :=
  String.toList_ofList

theorem map_toList_map_ofList (pieces : List (List Char)) :
    (pieces.map String.ofList).map String.toList = pieces := by
  rw [List.map_map]
  exact (List.map_congr_left fun piece _ => String.toList_ofList).trans (List.map_id pieces)

theorem map_toList_injective : Function.Injective (List.map String.toList) :=
  List.map_injective_iff.2 fun _ _ h => String.toList_inj.1 h

theorem decodeNames_empty (delimiter : String) : decodeNames delimiter "" = .ok [] := rfl

/-- The names of a text that is not empty are the pieces between the delimiters. -/
theorem decodeNames_eq_ok_iff (hd : delimiter.toList ≠ []) (ht : text.toList ≠ []) :
    decodeNames delimiter text = .ok names ↔
      Text.split delimiter.toList hd text.toList = names.map String.toList := by
  rw [decodeNames, if_neg ht, dif_neg hd, Except.ok.injEq]
  constructor
  · rintro rfl
    exact (map_toList_map_ofList _).symm
  · intro h
    refine map_toList_injective ?_
    rw [map_toList_map_ofList, h]

/-- Nothing but no names and a single empty name is encoded by the empty text. -/
theorem encode_eq_empty_iff (hd : delimiter.toList ≠ []) :
    (encode delimiter names).toList = [] ↔ names = [] ∨ names = [""] := by
  rw [toList_encode]
  match names with
  | [] => simp [Text.join, List.intercalate]
  | [name] => simp [Text.join, List.intercalate]
  | name :: next :: rest =>
    rw [List.map_cons, Text.join_cons _ (by simp)]
    simp [hd]

/-- Every text is the encoding of the names that it is decoded to. -/
theorem exists_decodeNames (hd : delimiter.toList ≠ []) (text : String) :
    ∃ names, decodeNames delimiter text = .ok names ∧ encode delimiter names = text ∧
      ∀ name ∈ names, ¬ delimiter.toList <:+: name.toList := by
  by_cases ht : text.toList = []
  · obtain rfl : text = "" := String.toList_inj.1 ht
    exact ⟨[], decodeNames_empty delimiter, rfl, List.forall_mem_nil _⟩
  · have hpieces := map_toList_map_ofList (Text.split delimiter.toList hd text.toList)
    refine ⟨_, (decodeNames_eq_ok_iff hd ht).2 hpieces.symm, ?_, ?_⟩
    · rw [encode, hpieces, Text.join_split, String.ofList_toList]
    · intro name hname
      have hpiece := List.mem_map_of_mem (f := String.toList) hname
      rw [hpieces] at hpiece
      exact Text.not_infix_of_mem_split hd _ hpiece

/-- Names are decoded from their encoding exactly if they can be told apart in it. -/
theorem decodeNames_encode_iff (hd : delimiter.toList ≠ []) :
    decodeNames delimiter (encode delimiter names) = .ok names ↔
      names ≠ [""] ∧ Text.Separable delimiter.toList (names.map String.toList) := by
  by_cases hempty : (encode delimiter names).toList = []
  · have htext : encode delimiter names = "" := String.toList_inj.1 hempty
    rw [htext, decodeNames_empty, Except.ok.injEq]
    rcases (encode_eq_empty_iff hd).1 hempty with rfl | rfl
    · simp [Text.separable_nil]
    · simp
  · have hnames := mt (encode_eq_empty_iff hd).2 hempty
    rw [not_or] at hnames
    have hpieces : names.map String.toList ≠ [] := mt List.map_eq_nil_iff.1 hnames.1
    rw [decodeNames_eq_ok_iff hd hempty, toList_encode, Text.split_join_eq_iff hd hpieces,
      and_iff_right hnames.2]

/-- Encoding gives back every text that was decoded, and no name in it contains the delimiter.
Decoding gives back the names that were encoded exactly if they are not a single empty name, the
last one does not contain the delimiter, and behind every other one the delimiter stands for the
first time. For a single character that means that it is in none of them. -/
theorem encoding_inverts_decoding (delimiter : String) (hd : delimiter ≠ "") :
    (∀ text, ∃ names, decodeNames delimiter text = .ok names ∧ encode delimiter names = text ∧
      ∀ name ∈ names, ¬ delimiter.toList <:+: name.toList) ∧
    (∀ names, decodeNames delimiter (encode delimiter names) = .ok names ↔
      names ≠ [""] ∧ Text.Separable delimiter.toList (names.map String.toList)) ∧
    ∀ (c : Char), delimiter = String.singleton c → ∀ names : List String,
      Text.Separable delimiter.toList (names.map String.toList) ↔
        ∀ name ∈ names, c ∉ name.toList := by
  have hne : delimiter.toList ≠ [] := by simpa using hd
  refine ⟨exists_decodeNames hne, fun names => decodeNames_encode_iff hne, ?_⟩
  rintro c rfl names
  rw [String.toList_singleton, Text.separable_char_iff, List.forall_mem_map]

/-- With `aa` between them, `a` and `b` are not found again, but `b` and `a` are. -/
theorem double_letter_inverts_decoding : "aa" ≠ "" ∧
    decodeNames "aa" (encode "aa" ["b", "a"]) = .ok ["b", "a"] ∧
    decodeNames "aa" (encode "aa" ["a", "b"]) ≠ .ok ["a", "b"] := by
  have hd : "aa" ≠ "" := by decide
  obtain ⟨-, hdecode, -⟩ := encoding_inverts_decoding "aa" hd
  exact ⟨hd, (hdecode _).2 (by decide), fun h => absurd ((hdecode _).1 h) (by decide)⟩

/-- A text denotes the word of the names that it is decoded to with commas. -/
theorem ofText_of_decodeNames (h : decodeNames defaultDelimiter text = .ok names) :
    ofText text = ofNames names := by
  have hdecode := decode_defaultDelimiter text
  rw [decode, h] at hdecode
  exact (Except.ok.inj hdecode).symm

end Word

/-! ## Words over an alphabet -/

namespace Alphabet

/-- Names that are symbols of an alphabet. -/
def Spells (A : Alphabet) (names : List String) : Prop := ∀ a ∈ names, a ∈ A.symbols

variable {A : Alphabet} {names : List String} {text : String}

theorem isWord_ofNames_iff : A.isWord (.ofNames names) = true ↔ A.Spells names := by
  simp [isWord, Word.ofNames, isSymbol, Spells]

/-- With a character between its symbols that is in no symbol of the alphabet, a word over the
alphabet is decoded from its encoding. -/
theorem Spells.decodeNames_encode_singleton {c : Char} (h : A.Spells names)
    (hc : ∀ a ∈ A.symbols, c ∉ a.toList) : Word.decodeNames (String.singleton c)
      (Word.encode (String.singleton c) names) = .ok names := by
  have hd : (String.singleton c).toList ≠ [] := by
    rw [String.toList_singleton]
    exact List.cons_ne_nil c []
  rw [Word.decodeNames_encode_iff hd]
  constructor
  · rintro rfl
    exact A.symbol_ne_empty "" (h "" List.mem_cons_self) rfl
  · rw [String.toList_singleton]
    exact Text.separable_char_iff.2 (List.forall_mem_map.2 fun a ha => hc a (h a ha))

/-- A word over an alphabet is decoded from its encoding. -/
theorem Spells.decodeNames_encode (h : A.Spells names) :
    Word.decodeNames defaultDelimiter (Word.encode defaultDelimiter names) = .ok names := by
  have hcomma : defaultDelimiter = String.singleton ',' := by decide
  rw [hcomma]
  exact h.decodeNames_encode_singleton A.comma_not_mem

theorem Spells.ofText_encode (h : A.Spells names) :
    Word.ofText (Word.encode defaultDelimiter names) = .ofNames names :=
  Word.ofText_of_decodeNames h.decodeNames_encode

theorem Spells.encode_injective {names' : List String} (h : A.Spells names)
    (h' : A.Spells names') (he : Word.encode defaultDelimiter names =
      Word.encode defaultDelimiter names') : names = names' := by
  have hdecode := h.decodeNames_encode
  rw [he, h'.decodeNames_encode] at hdecode
  exact (Except.ok.inj hdecode).symm

theorem isWord_ofText_iff : A.isWord (.ofText text) = true ↔
    ∃ names, A.Spells names ∧ Word.encode defaultDelimiter names = text := by
  constructor
  · intro h
    have hd : defaultDelimiter.toList ≠ [] := by decide
    obtain ⟨names, hdecode, hencode, -⟩ := Word.exists_decodeNames hd text
    rw [Word.ofText_of_decodeNames hdecode] at h
    exact ⟨names, isWord_ofNames_iff.1 h, hencode⟩
  · rintro ⟨names, h, rfl⟩
    rw [h.ofText_encode]
    exact isWord_ofNames_iff.2 h

end Alphabet

namespace Dfa

variable {M : Dfa} {w : Word} {q r : String} {text : String}

/-- Only words over the alphabet lead anywhere. -/
theorem Leads.isWord (h : M.Leads q w r) : M.alphabet.isWord w = true := by
  induction w generalizing q with
  | nil => rfl
  | cons a w ih =>
    obtain ⟨s, hmove, hrest⟩ := leads_cons_iff.1 h
    have ha := isSymbol_of_move hmove
    rw [Alphabet.isWord, List.all_cons, ha, Bool.true_and]
    exact ih hrest

theorem isWord_of_accepts (h : M.accepts w = true) : M.alphabet.isWord w = true := by
  obtain ⟨r, -, hleads⟩ := accepts_iff_leads.1 h
  exact hleads.isWord

theorem accepts_ofText_iff : M.accepts (.ofText text) = true ↔ ∃ names,
    M.alphabet.Spells names ∧ Word.encode defaultDelimiter names = text ∧
      M.accepts (.ofNames names) = true := by
  constructor
  · intro h
    obtain ⟨names, hspells, rfl⟩ := Alphabet.isWord_ofText_iff.1 (isWord_of_accepts h)
    rw [hspells.ofText_encode] at h
    exact ⟨names, hspells, rfl, h⟩
  · rintro ⟨names, hspells, rfl, h⟩
    rwa [hspells.ofText_encode]

/-- An automaton accepts the encodings of the words over its alphabet that it accepts, and no other
texts, and it runs on an encoding, alone or in a batch, as on the word. A text denotes a word over
an alphabet exactly if it encodes one, and it encodes at most one. -/
theorem texts_denote_words (M : Dfa) :
    (∀ text, M.accepts (.ofText text) = true ↔ ∃ names, M.alphabet.Spells names ∧
      Word.encode defaultDelimiter names = text ∧ M.accepts (.ofNames names) = true) ∧
    (∀ names, M.alphabet.Spells names →
      let text := Word.encode defaultDelimiter names
      M.run (.ofText text) = M.run (.ofNames names) ∧
      (NumberedDfa.ofDfa M).accepts [.ofText text] = (NumberedDfa.ofDfa M).accepts [.ofNames names]) ∧
    ∀ A : Alphabet,
      (∀ text, A.isWord (.ofText text) = true ↔
        ∃ names, A.Spells names ∧ Word.encode defaultDelimiter names = text) ∧
      ∀ names names', A.Spells names → A.Spells names' →
        Word.encode defaultDelimiter names = Word.encode defaultDelimiter names' →
          names = names' := by
  refine ⟨fun text => accepts_ofText_iff, fun names h => ?_, fun A => ⟨fun text => ?_, ?_⟩⟩
  · simp only [h.ofText_encode, and_self]
  · exact Alphabet.isWord_ofText_iff
  · exact fun names names' h h' => h.encode_injective h'

end Dfa
end WordAutomata
