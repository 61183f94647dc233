import WordAutomata.Proofs.Except
import WordAutomata.Proofs.Json.RoundTrip

/-!
# White space behind a text

White space behind a text does not complete it: whatever is read in front of it, is read without it
as well. So a line that is no JSON text is none with its line feed either.
-/
namespace WordAutomata.Json

open WordAutomata.Text

/-- What has been read, with more text behind the rest. -/
def followedBy {α : Type} (more : List Char) (p : α × List Char) : α × List Char :=
  (p.1, p.2 ++ more)

@[simp] theorem followedBy_fst {α : Type} (more : List Char) (p : α × List Char) :
    (followedBy more p).1 = p.1 := rfl

@[simp] theorem followedBy_snd {α : Type} (more : List Char) (p : α × List Char) :
    (followedBy more p).2 = p.2 ++ more := rfl

section Trailing

variable {blank : List Char}

theorem isSpace_cases {c : Char} (h : isSpace c = true) :
    c = ' ' ∨ c = '\t' ∨ c = '\n' ∨ c = '\r' := by
  simpa [isSpace, or_assoc] using h

theorem ends_of_blank (hb : ∀ c ∈ blank, isSpace c = true) : Ends blank := by
  rw [← List.append_nil blank]
  exact ends_blank hb ends_nil

/-- Behind what is left of a text without the white space at its front, there is white space or
nothing. -/
theorem skipSpace_append_blank (hb : ∀ c ∈ blank, isSpace c = true) (s : List Char) :
    ∃ more, (∀ c ∈ more, isSpace c = true) ∧ skipSpace (s ++ blank) = skipSpace s ++ more := by
  induction s with
  | nil =>
    refine ⟨[], by simp, ?_⟩
    have h := skipSpace_append hb []
    rw [List.append_nil] at h
    exact h
  | cons c s ih =>
    by_cases hc : isSpace c = true
    · obtain ⟨more, hm, he⟩ := ih
      refine ⟨more, hm, ?_⟩
      rw [List.cons_append, skipSpace, List.dropWhile_cons_of_pos hc, skipSpace,
        List.dropWhile_cons_of_pos hc]
      exact he
    · refine ⟨blank, hb, ?_⟩
      rw [List.cons_append, skipSpace_cons (by simpa using hc), skipSpace_cons (by simpa using hc)]
      rfl

/-- White space does not complete a text in which there is none. -/
theorem prefix_of_append_blank (hb : ∀ c ∈ blank, isSpace c = true) {word s : List Char}
    (hw : ∀ c ∈ word, isSpace c = false) (h : word <+: s ++ blank) : word <+: s := by
  rcases List.prefix_or_prefix_of_prefix h (List.prefix_append s blank) with hs | ⟨more, rfl⟩
  · exact hs
  · cases more with
    | nil => exact ⟨[], by simp⟩
    | cons c more =>
      have hmem := ((List.prefix_append_right_inj s).1 h).subset List.mem_cons_self
      have hplain := hw c (List.mem_append_right s List.mem_cons_self)
      rw [hb c hmem] at hplain
      cases hplain

theorem not_space_of_all {word : List Char} (h : (word.all fun c => !isSpace c) = true) :
    ∀ c ∈ word, isSpace c = false := by
  simpa [List.all_eq_true] using h

/-- What a text begins with, it begins with also when white space stands behind it. -/
theorem prefix_append_blank_iff (hb : ∀ c ∈ blank, isSpace c = true) {word s : List Char}
    (hw : ∀ c ∈ word, isSpace c = false) : word <+: s ++ blank ↔ word <+: s :=
  ⟨prefix_of_append_blank hb hw, fun h => h.trans (List.prefix_append s blank)⟩

/-- Behind a text white space adds nothing that the text could begin with. -/
theorem begins_or_not (hb : ∀ c ∈ blank, isSpace c = true) {c : Char} (hc : isSpace c = false)
    (s : List Char) :
    (∃ rest, s = c :: rest ∧ s ++ blank = c :: (rest ++ blank)) ∨
      (∀ rest, s ≠ c :: rest) ∧ ∀ rest, s ++ blank ≠ c :: rest := by
  by_cases h : [c] <+: s
  · obtain ⟨rest, rfl⟩ := h
    exact .inl ⟨rest, rfl, rfl⟩
  · have hplain : ∀ d ∈ [c], isSpace d = false := List.forall_mem_singleton.2 hc
    refine .inr ⟨fun rest he => h ⟨rest, he.symm⟩, fun rest he => h ?_⟩
    exact prefix_of_append_blank hb hplain ⟨rest, he.symm⟩

/-! ## Numbers and words -/

theorem takeWhile_append_blank (hb : ∀ c ∈ blank, isSpace c = true) (s : List Char) :
    (s ++ blank).takeWhile Char.isDigit = s.takeWhile Char.isDigit ∧
      (s ++ blank).dropWhile Char.isDigit = s.dropWhile Char.isDigit ++ blank := by
  induction s with
  | nil => exact takeWhile_digits (by simp) (ends_of_blank hb)
  | cons c s ih =>
    by_cases hc : c.isDigit = true
    · simp [hc, ih]
    · simp [hc]

theorem integerPart?_append_blank (hb : ∀ c ∈ blank, isSpace c = true) (s : List Char) :
    integerPart? (s ++ blank) = (integerPart? s).map (followedBy blank) := by
  cases s with
  | nil =>
    cases blank with
    | nil => rfl
    | cons c blank =>
      rcases isSpace_cases (hb c List.mem_cons_self) with rfl | rfl | rfl | rfl <;> rfl
  | cons c s =>
    obtain ⟨htake, hdrop⟩ := takeWhile_append_blank hb s
    rw [List.cons_append, integerPart?, integerPart?, htake, hdrop]
    split
    · rfl
    · split <;> rfl

theorem fractionPart_append_blank (hb : ∀ c ∈ blank, isSpace c = true) (s : List Char) :
    fractionPart (s ++ blank) = followedBy blank (fractionPart s) := by
  cases s with
  | nil => exact fractionPart_of_ends (ends_of_blank hb)
  | cons c s =>
    obtain ⟨htake, hdrop⟩ := takeWhile_append_blank hb s
    by_cases hc : c = '.'
    · subst hc
      rw [List.cons_append, fractionPart, fractionPart, htake, hdrop]
      split <;> rfl
    · have hplain : ∀ s, fractionPart (c :: s) = ([], c :: s) := by
        intro s
        rw [fractionPart]
        simpa using hc
      rw [List.cons_append, hplain, hplain]
      rfl

theorem exponentSign_append_blank (hb : ∀ c ∈ blank, isSpace c = true) (s : List Char) :
    exponentSign (s ++ blank) = followedBy blank (exponentSign s) := by
  cases s with
  | nil =>
    cases blank with
    | nil => rfl
    | cons c blank =>
      rcases isSpace_cases (hb c List.mem_cons_self) with rfl | rfl | rfl | rfl <;> rfl
  | cons c s =>
    rw [List.cons_append]
    unfold exponentSign
    split <;> simp_all [followedBy]

theorem exponentPart_append_blank (hb : ∀ c ∈ blank, isSpace c = true) (s : List Char) :
    exponentPart (s ++ blank) = followedBy blank (exponentPart s) := by
  cases s with
  | nil => exact exponentPart_of_ends (ends_of_blank hb)
  | cons c s =>
    obtain ⟨htake, hdrop⟩ := takeWhile_append_blank hb (exponentSign s).2
    rw [List.cons_append, exponentPart, exponentPart]
    simp only [exponentSign_append_blank hb, followedBy_fst, followedBy_snd, htake, hdrop]
    split
    · split <;> rfl
    · rfl

theorem unsigned?_append_blank (hb : ∀ c ∈ blank, isSpace c = true) (negative : Bool)
    (s : List Char) :
    unsigned? negative (s ++ blank) = (unsigned? negative s).map (followedBy blank) := by
  rw [unsigned?, unsigned?, integerPart?_append_blank hb]
  cases integerPart? s with
  | none => rfl
  | some p =>
    simp only [Option.map_some, bind, Option.bind_some, followedBy_fst, followedBy_snd,
      fractionPart_append_blank hb, exponentPart_append_blank hb]
    split <;> rfl

theorem number?_append_blank (hb : ∀ c ∈ blank, isSpace c = true) (s : List Char) :
    number? (s ++ blank) = (number? s).map (followedBy blank) := by
  rcases begins_or_not hb (c := '-') rfl s with ⟨rest, hs, he⟩ | ⟨hs, hs'⟩
  · rw [he, hs]
    exact unsigned?_append_blank hb true rest
  · have hplain : ∀ t, (∀ rest, t ≠ '-' :: rest) → number? t = unsigned? false t := by
      intro t ht
      rw [number?]
      exact ht
    rw [hplain _ hs', hplain s hs, unsigned?_append_blank hb]

theorem scalar?_append_blank (hb : ∀ c ∈ blank, isSpace c = true) (s : List Char) :
    scalar? (s ++ blank) = (scalar? s).map (followedBy blank) := by
  have hfind : (words.find? fun word => word.1.isPrefixOf (s ++ blank)) =
      words.find? fun word => word.1.isPrefixOf s := by
    have hword : ∀ word : List Char, (∀ c ∈ word, isSpace c = false) →
        word.isPrefixOf (s ++ blank) = word.isPrefixOf s := by
      intro word hw
      rw [Bool.eq_iff_iff, List.isPrefixOf_iff_prefix, List.isPrefixOf_iff_prefix]
      exact prefix_append_blank_iff hb hw
    simp only [words, List.find?_cons, List.find?_nil]
    repeat rw [hword _ (not_space_of_all rfl)]
  rw [scalar?, scalar?, hfind]
  cases h : words.find? fun word => word.1.isPrefixOf s with
  | none => exact number?_append_blank hb s
  | some p =>
    have hp : p.1 <+: s := by simpa using List.find?_some h
    simp only [Option.map_some, followedBy]
    rw [List.drop_append_of_le_length hp.length_le]

/-! ## Escapes and strings -/

theorem hexValue?_of_isSpace {c : Char} (h : isSpace c = true) : hexValue? c = none := by
  rcases isSpace_cases h with rfl | rfl | rfl | rfl <;> decide

theorem hexFour?_eq_none {s : List Char} {c : Char} (hc : c ∈ s.take 4)
    (h : hexValue? c = none) : hexFour? s = none := by
  unfold hexFour?
  split
  · simp only [List.take_succ_cons, List.take_zero, List.mem_cons, List.not_mem_nil,
      or_false] at hc
    rcases hc with rfl | rfl | rfl | rfl <;> simp [h]
  · rfl

theorem hexFour?_append_blank (hb : ∀ c ∈ blank, isSpace c = true) (s : List Char) :
    hexFour? (s ++ blank) = (hexFour? s).map (followedBy blank) := by
  by_cases hlen : s.length < 4
  · -- The digits would have to go on into the white space.
    have hnone : hexFour? s = none := by
      unfold hexFour?
      split
      · simp only [List.length_cons] at hlen
        omega
      · rfl
    rw [hnone]
    cases blank with
    | nil => rw [List.append_nil, hnone, Option.map_none]
    | cons c blank =>
      refine hexFour?_eq_none ?_ (hexValue?_of_isSpace (hb c List.mem_cons_self))
      rw [List.take_append, List.mem_append]
      obtain ⟨n, hn⟩ : ∃ n, 4 - s.length = n + 1 := ⟨3 - s.length, by omega⟩
      rw [hn, List.take_succ_cons]
      exact .inr List.mem_cons_self
  · match s with
    | a :: b :: c :: d :: rest =>
      simp only [List.cons_append, hexFour?, bind]
      cases hexValue? a <;> cases hexValue? b <;> cases hexValue? c <;> cases hexValue? d <;> rfl
    | [] | [_] | [_, _] | [_, _, _] => exact absurd (by simp) hlen

/-- An escape that nothing but the white space follows is one only with the white space. -/
theorem escapeUnit?_append_blank (hb : ∀ c ∈ blank, isSpace c = true) (s : List Char) :
    escapeUnit? (s ++ blank) = (escapeUnit? s).map (followedBy blank) ∨
      escapeUnit? s = none ∧ ∃ unit, escapeUnit? (s ++ blank) = some (unit, blank) := by
  rw [escapeUnit?, escapeUnit?, hexFour?_append_blank hb]
  cases hexFour? s with
  | none => exact .inl rfl
  | some p =>
    obtain ⟨unit, rest⟩ := p
    cases rest with
    | nil =>
      cases blank with
      | nil => exact .inl rfl
      | cons c blank => exact .inr ⟨rfl, unit, rfl⟩
    | cons c rest => exact .inl rfl

theorem lowSurrogate?_append_blank (hb : ∀ c ∈ blank, isSpace c = true) (s : List Char) :
    lowSurrogate? (s ++ blank) = (lowSurrogate? s).map (followedBy blank) ∨
      lowSurrogate? s = none ∧ ∃ unit, lowSurrogate? (s ++ blank) = some (unit, blank) := by
  by_cases hs : ∃ rest, s = '\\' :: 'u' :: rest
  · obtain ⟨rest, rfl⟩ := hs
    simp only [List.cons_append, lowSurrogate?]
    rcases escapeUnit?_append_blank hb rest with he | ⟨hnone, unit, he⟩
    · rw [he]
      refine .inl ?_
      cases escapeUnit? rest with
      | none => rfl
      | some p =>
        simp only [Option.map_some, Option.bind_some, followedBy]
        split <;> rfl
    · rw [he, hnone]
      simp only [Option.bind_some, Option.bind_none]
      split
      · exact .inr ⟨trivial, unit, rfl⟩
      · exact .inl rfl
  · have hplain : ∀ t, (∀ rest, t ≠ '\\' :: 'u' :: rest) → lowSurrogate? t = none := by
      intro t ht
      rw [lowSurrogate?]
      exact ht
    have hescape : ∀ rest, s ++ blank ≠ '\\' :: 'u' :: rest := by
      intro rest he
      have hp : ['\\', 'u'] <+: s ++ blank := ⟨rest, he.symm⟩
      obtain ⟨more, rfl⟩ := prefix_of_append_blank hb (not_space_of_all rfl) hp
      exact hs ⟨more, rfl⟩
    rw [hplain _ hescape, hplain s fun rest he => hs ⟨rest, he⟩]
    exact .inl rfl

theorem escapedChar_append_blank (hb : ∀ c ∈ blank, isSpace c = true) (unit : Nat)
    (s : List Char) : escapedChar unit (s ++ blank) = followedBy blank (escapedChar unit s) ∨
      (escapedChar unit (s ++ blank)).2 = blank := by
  by_cases hhigh : 0xd800 ≤ unit ∧ unit < 0xdc00
  · rw [escapedChar, escapedChar, if_pos hhigh, if_pos hhigh]
    rcases lowSurrogate?_append_blank hb s with he | ⟨-, low, he⟩
    · rw [he]
      cases lowSurrogate? s with
      | none => exact .inl rfl
      | some p =>
        simp only [Option.map_some, followedBy, true_or]
    · rw [he]
      exact .inr rfl
  · by_cases hlow : 0xdc00 ≤ unit ∧ unit < 0xe000
    · rw [escapedChar, escapedChar, if_neg hhigh, if_neg hhigh, if_pos hlow, if_pos hlow]
      exact .inl rfl
    · rw [escapedChar, escapedChar, if_neg hhigh, if_neg hhigh, if_neg hlow, if_neg hlow]
      exact .inl rfl

theorem readString_control {c : Char} (h : c < ' ') (opening rest : List Char) :
    readString opening (c :: rest) = .error ⟨.controlCharacter, c :: rest⟩ := by
  rw [readString]
  · exact if_pos h
  all_goals
    intros
    subst_vars
    revert h
    decide

theorem readString_no_unit {rest : List Char} (opening : List Char) (h : escapeUnit? rest = none) :
    readString opening ('\\' :: 'u' :: rest) = .error ⟨.invalidUnicodeEscape, 'u' :: rest⟩ := by
  rw [readString]
  split
  · rfl
  · rename_i hs
    rw [h] at hs
    cases hs

theorem readString_no_letter {c : Char} (opening rest : List Char) (hc : c ≠ 'u')
    (h : escapedLetter? c = none) :
    readString opening ('\\' :: c :: rest) = .error ⟨.invalidEscape, '\\' :: c :: rest⟩ := by
  rw [readString]
  · rw [h]
  · exact hc

/-- White space does not close a string. -/
theorem readString_blank (hb : ∀ c ∈ blank, isSpace c = true) (opening : List Char)
    (p : List Char × List Char) : readString opening blank ≠ .ok p := by
  induction blank generalizing p with
  | nil =>
    intro h
    rw [readString] at h
    cases h
  | cons c blank ih =>
    intro h
    by_cases hc : c < ' '
    · rw [readString_control hc] at h
      cases h
    · have hspace : c = ' ' := by
        rcases isSpace_cases (hb c List.mem_cons_self) with rfl | rfl | rfl | rfl
        · rfl
        all_goals exact absurd (by decide) hc
      subst hspace
      rw [readString_plain opening blank (by decide) (by decide) (by decide)] at h
      cases hr : readString opening blank with
      | error e =>
        rw [hr] at h
        cases h
      | ok q => exact ih (fun x hx => hb x (List.mem_cons_of_mem _ hx)) q hr

theorem escapedChar_blank (hb : ∀ c ∈ blank, isSpace c = true) (unit : Nat) :
    (escapedChar unit blank).2 = blank := by
  rcases escapedChar_append_blank hb unit [] with he | he
  · have hnil : (escapedChar unit []).2 = [] :=
      List.eq_nil_of_length_eq_zero (Nat.le_zero.1 (length_escapedChar_le unit []))
    rw [List.nil_append] at he
    rw [he, followedBy_snd, hnil, List.nil_append]
  · exact he

/-- White space does not close a string that has begun already. -/
theorem map_readString_blank (hb : ∀ c ∈ blank, isSpace c = true) (opening : List Char)
    (f : List Char × List Char → List Char × List Char) (p : List Char × List Char) :
    (readString opening blank).map f ≠ .ok p := by
  intro h
  obtain ⟨q, hread, -⟩ := map_eq_ok_iff.1 h
  exact readString_blank hb opening q hread

/-- One character more, with the same text behind it on both sides. -/
theorem map_readString_append_blank {opening other s : List Char}
    (ih : ∀ chars rest, readString opening (s ++ blank) = .ok (chars, rest) →
      ∃ before, rest = before ++ blank ∧ readString other s = .ok (chars, before))
    {c : Char} {chars rest : List Char}
    (h : (readString opening (s ++ blank)).map (fun p => (c :: p.1, p.2)) = .ok (chars, rest)) :
    ∃ before, rest = before ++ blank ∧
      (readString other s).map (fun p => (c :: p.1, p.2)) = .ok (chars, before) := by
  obtain ⟨⟨more, last⟩, hread, he⟩ := map_eq_ok_iff.1 h
  cases he
  obtain ⟨before, hrest, hbefore⟩ := ih more last hread
  exact ⟨before, hrest, map_eq_ok_iff.2 ⟨(more, before), hbefore, rfl⟩⟩

/-- A string that is read before white space is read without it. -/
theorem readString_append_blank (hb : ∀ c ∈ blank, isSpace c = true)
    (opening other s : List Char) :
    ∀ chars rest, readString opening (s ++ blank) = .ok (chars, rest) →
      ∃ before, rest = before ++ blank ∧ readString other s = .ok (chars, before) := by
  fun_induction readString other s with
  | case1 =>
    intro chars rest h
    exact absurd h (readString_blank hb opening _)
  | case2 rest =>
    intro chars last h
    rw [List.cons_append, readString_quote] at h
    cases h
    exact ⟨rest, rfl, rfl⟩
  | case3 =>
    intro chars last h
    cases blank with
    | nil =>
      rw [List.append_nil, readString] at h
      cases h
    | cons c blank =>
      have hc : c ≠ 'u' ∧ escapedLetter? c = none := by
        rcases isSpace_cases (hb c List.mem_cons_self) with rfl | rfl | rfl | rfl <;> decide
      rw [List.cons_append, List.nil_append, readString_no_letter opening blank hc.1 hc.2] at h
      cases h
  | case4 rest hunit =>
    intro chars last h
    rw [List.cons_append, List.cons_append] at h
    rcases escapeUnit?_append_blank hb rest with he | ⟨-, unit, he⟩
    · rw [hunit, Option.map_none] at he
      rw [readString_no_unit opening he] at h
      cases h
    · rw [readString_unicode opening he, escapedChar_blank hb] at h
      exact absurd h (map_readString_blank hb opening _ _)
  | case5 rest unit behind hunit ih =>
    intro chars last h
    have he : escapeUnit? (rest ++ blank) = some (unit, behind ++ blank) := by
      rcases escapeUnit?_append_blank hb rest with he | ⟨hnone, -⟩
      · rw [he, hunit]
        rfl
      · rw [hunit] at hnone
        cases hnone
    rw [List.cons_append, List.cons_append, readString_unicode opening he] at h
    rcases escapedChar_append_blank hb unit behind with hc | hc
    · rw [hc] at h
      exact map_readString_append_blank ih h
    · rw [hc] at h
      exact absurd h (map_readString_blank hb opening _ _)
  | case6 c rest hu hletter =>
    intro chars last h
    rw [List.cons_append, List.cons_append, readString_no_letter opening _ hu hletter] at h
    cases h
  | case7 c rest hu d hletter ih =>
    intro chars last h
    rw [List.cons_append, List.cons_append, readString_letter opening _ hu hletter] at h
    exact map_readString_append_blank ih h
  | case8 c rest h₁ h₂ h₃ h₄ hc =>
    intro chars last h
    rw [List.cons_append, readString_control hc] at h
    cases h
  | case9 c rest hquote halone _ hescape hc ih =>
    intro chars last h
    have hslash : c ≠ '\\' := by
      intro he
      cases rest with
      | nil => exact halone he rfl
      | cons d rest => exact hescape d rest he rfl
    rw [List.cons_append, readString_plain opening _ hquote hslash (Char.not_lt.1 hc)] at h
    exact map_readString_append_blank ih h

/-! ## One step of the reader -/

theorem readValue_quote (frames : List Frame) (s : List Char) :
    readValue frames ('\x22' :: s) = readString ('\x22' :: s) s >>= fun p =>
      closeValue frames (.text (String.ofList p.1)) p.2 := by
  rw [readValue]
  cases readString ('\x22' :: s) s <;> rfl

theorem readValue_list_closed {s rest : List Char} (frames : List Frame)
    (h : skipSpace s = ']' :: rest) :
    readValue frames ('[' :: s) = closeValue frames (.list []) rest := by
  rw [readValue, h]
  rfl

theorem readValue_list_open {s : List Char} (frames : List Frame)
    (h : ∀ rest, skipSpace s ≠ ']' :: rest) :
    readValue frames ('[' :: s) = readValue (.list [] :: frames) (skipSpace s) := by
  rw [readValue]
  split
  · rename_i rest he
    exact absurd he (h rest)
  · rfl

theorem readValue_record_closed {s rest : List Char} (frames : List Frame)
    (h : skipSpace s = '\x7d' :: rest) :
    readValue frames ('\x7b' :: s) = closeValue frames (.record []) rest := by
  rw [readValue, h]
  rfl

theorem readValue_record_open {s : List Char} (frames : List Frame)
    (h : ∀ rest, skipSpace s ≠ '\x7d' :: rest) :
    readValue frames ('\x7b' :: s) = readName frames [] (skipSpace s) := by
  rw [readValue]
  split
  · rename_i rest he
    exact absurd he (h rest)
  · rfl

theorem closeValue_list_other {frames : List Frame} {items : List Datum} {d : Datum}
    {s : List Char} (hcomma : ∀ rest, skipSpace s ≠ ',' :: rest)
    (hbracket : ∀ rest, skipSpace s ≠ ']' :: rest) :
    closeValue (.list items :: frames) d s = .error ⟨.expectedComma, skipSpace s⟩ := by
  rw [closeValue]
  split
  · rename_i rest he
    exact absurd he (hcomma rest)
  · rename_i rest he
    exact absurd he (hbracket rest)
  · rfl

theorem closeValue_record_other {frames : List Frame} {fields : Fields String Datum} {name : String}
    {d : Datum} {s : List Char} (hcomma : ∀ rest, skipSpace s ≠ ',' :: rest)
    (hbrace : ∀ rest, skipSpace s ≠ '\x7d' :: rest) :
    closeValue (.record fields name :: frames) d s = .error ⟨.expectedComma, skipSpace s⟩ := by
  rw [closeValue]
  split
  · rename_i rest he
    exact absurd he (hcomma rest)
  · rename_i rest he
    exact absurd he (hbrace rest)
  · rfl

/-- What is read behind the name of a field. -/
def readColon (frames : List Frame) (fields : Fields String Datum) (name : List Char)
    (s : List Char) : Except Fault (Datum × List Char) :=
  match s with
  | ':' :: rest => readValue (.record fields (String.ofList name) :: frames) (skipSpace rest)
  | rest => .error ⟨.expectedColon, rest⟩

theorem readName_quote (frames : List Frame) (fields : Fields String Datum) (s : List Char) :
    readName frames fields ('\x22' :: s) = readString ('\x22' :: s) s >>= fun p =>
      readColon frames fields p.1 (skipSpace p.2) := by
  rw [readName]
  cases readString ('\x22' :: s) s with
  | error e => rfl
  | ok p =>
    simp only [ok_bind]
    generalize skipSpace p.2 = t
    unfold readColon
    split
    · rfl
    · rename_i hne
      split
      · exact absurd rfl (hne _)
      · rfl

theorem readName_other {s : List Char} (frames : List Frame) (fields : Fields String Datum)
    (h : ∀ rest, s ≠ '\x22' :: rest) :
    readName frames fields s = .error ⟨.expectedName, s⟩ := by
  rw [readName]
  exact h

theorem readValue_other {s : List Char} (frames : List Frame)
    (h : ∀ rest, s ≠ '\x22' :: rest ∧ s ≠ '[' :: rest ∧ s ≠ '\x7b' :: rest) :
    readValue frames s = match scalar? s with
      | some (d, rest) => closeValue frames d rest
      | none => .error ⟨.expectedValue, s⟩ := by
  rw [readValue]
  · cases scalar? s <;> rfl
  · exact fun rest => (h rest).1
  · exact fun rest => (h rest).2.1
  · exact fun rest => (h rest).2.2

/-! ## Values -/

/-- What the first reading gives, the second gives as well, where white space that stood behind the
rest may be missing. -/
def Regardless {α : Type} (behind without : Except Fault (α × List Char)) : Prop :=
  ∀ a rest, behind = .ok (a, rest) → ∃ before more, (∀ c ∈ more, isSpace c = true) ∧
    rest = before ++ more ∧ without = .ok (a, before)

theorem regardless_error {α : Type} (fault : Fault) (x : Except Fault (α × List Char)) :
    Regardless (.error fault) x := by
  intro a rest h
  cases h

theorem length_lt_of_cons {c : Char} {s rest : List Char} (h : s = c :: rest) :
    rest.length < s.length := by
  rw [h]
  exact Nat.lt_succ_self _

theorem length_lt_of_skipSpace {c : Char} {s rest : List Char} (h : skipSpace s = c :: rest) :
    rest.length < s.length := by
  have hle := length_skipSpace_le s
  rw [h, List.length_cons] at hle
  omega

end Trailing

mutual

theorem readValue_append_blank (frames : List Frame) (s : List Char) {blank : List Char}
    (hb : ∀ c ∈ blank, isSpace c = true) :
    Regardless (readValue frames (s ++ blank)) (readValue frames s) := by
  rcases begins_or_not hb (c := '\x22') rfl s with ⟨rest, hs, he⟩ | hquote
  · intro d last h
    rw [he, readValue_quote] at h
    obtain ⟨⟨chars, behind⟩, hread, hclose⟩ := bind_eq_ok_iff.1 h
    obtain ⟨before, rfl, hbefore⟩ := readString_append_blank hb _ ('\x22' :: rest) _ _ _ hread
    have hlt : before.length < s.length :=
      Nat.lt_trans (length_lt_of_readString hbefore) (length_lt_of_cons hs)
    rw [hs, readValue_quote, hbefore, ok_bind]
    exact closeValue_append_blank frames _ before hb d last hclose
  rcases begins_or_not hb (c := '[') rfl s with ⟨rest, hs, he⟩ | hlist
  · obtain ⟨more, hm, hskip⟩ := skipSpace_append_blank hb rest
    have hrest : (skipSpace rest).length < s.length :=
      Nat.lt_of_le_of_lt (length_skipSpace_le rest) (length_lt_of_cons hs)
    rw [he, hs]
    rcases begins_or_not hm (c := ']') rfl (skipSpace rest) with ⟨inside, ht, ht'⟩ | ⟨hne, hne'⟩
    · have hlt : inside.length < s.length :=
        Nat.lt_trans (length_lt_of_skipSpace ht) (length_lt_of_cons hs)
      rw [readValue_list_closed frames (hskip.trans ht'), readValue_list_closed frames ht]
      exact closeValue_append_blank frames _ inside hm
    · rw [readValue_list_open frames (hskip ▸ hne'), readValue_list_open frames hne, hskip]
      exact readValue_append_blank _ (skipSpace rest) hm
  rcases begins_or_not hb (c := '\x7b') rfl s with ⟨rest, hs, he⟩ | hrecord
  · obtain ⟨more, hm, hskip⟩ := skipSpace_append_blank hb rest
    have hrest : (skipSpace rest).length < s.length :=
      Nat.lt_of_le_of_lt (length_skipSpace_le rest) (length_lt_of_cons hs)
    rw [he, hs]
    rcases begins_or_not hm (c := '\x7d') rfl (skipSpace rest) with
      ⟨inside, ht, ht'⟩ | ⟨hne, hne'⟩
    · have hlt : inside.length < s.length :=
        Nat.lt_trans (length_lt_of_skipSpace ht) (length_lt_of_cons hs)
      rw [readValue_record_closed frames (hskip.trans ht'), readValue_record_closed frames ht]
      exact closeValue_append_blank frames _ inside hm
    · rw [readValue_record_open frames (hskip ▸ hne'), readValue_record_open frames hne, hskip]
      exact readName_append_blank _ _ (skipSpace rest) hm
  rw [readValue_other frames fun rest => ⟨hquote.2 rest, hlist.2 rest, hrecord.2 rest⟩,
    readValue_other frames fun rest => ⟨hquote.1 rest, hlist.1 rest, hrecord.1 rest⟩,
    scalar?_append_blank hb]
  cases h : scalar? s with
  | none => exact regardless_error _ _
  | some p =>
    have hlt : p.2.length < s.length := length_lt_of_scalar? h
    exact closeValue_append_blank frames p.1 p.2 hb
termination_by s.length

theorem closeValue_append_blank (frames : List Frame) (d : Datum) (s : List Char)
    {blank : List Char} (hb : ∀ c ∈ blank, isSpace c = true) :
    Regardless (closeValue frames d (s ++ blank)) (closeValue frames d s) := by
  obtain ⟨more, hm, hskip⟩ := skipSpace_append_blank hb s
  match frames with
  | [] =>
    intro e last h
    rw [closeValue_nil] at h
    cases h
    exact ⟨s, blank, hb, rfl, closeValue_nil d s⟩
  | .list items :: frames =>
    rcases begins_or_not hm (c := ',') rfl (skipSpace s) with ⟨rest, ht, ht'⟩ | ⟨hcomma, hcomma'⟩
    · obtain ⟨more', hm', hskip'⟩ := skipSpace_append_blank hm rest
      have hlt : (skipSpace rest).length < s.length :=
        Nat.lt_of_le_of_lt (length_skipSpace_le rest) (length_lt_of_skipSpace ht)
      rw [closeValue_list_comma (hskip.trans ht'), closeValue_list_comma ht, hskip']
      exact readValue_append_blank _ (skipSpace rest) hm'
    rcases begins_or_not hm (c := ']') rfl (skipSpace s) with ⟨rest, ht, ht'⟩ | ⟨hclose, hclose'⟩
    · have hlt : rest.length < s.length := length_lt_of_skipSpace ht
      rw [closeValue_list_bracket (hskip.trans ht'), closeValue_list_bracket ht]
      exact closeValue_append_blank _ _ rest hm
    · rw [closeValue_list_other (hskip ▸ hcomma') (hskip ▸ hclose')]
      exact regardless_error _ _
  | .record fields name :: frames =>
    rcases begins_or_not hm (c := ',') rfl (skipSpace s) with ⟨rest, ht, ht'⟩ | ⟨hcomma, hcomma'⟩
    · obtain ⟨more', hm', hskip'⟩ := skipSpace_append_blank hm rest
      have hlt : (skipSpace rest).length < s.length :=
        Nat.lt_of_le_of_lt (length_skipSpace_le rest) (length_lt_of_skipSpace ht)
      rw [closeValue_record_comma (hskip.trans ht'), closeValue_record_comma ht, hskip']
      exact readName_append_blank _ _ (skipSpace rest) hm'
    rcases begins_or_not hm (c := '\x7d') rfl (skipSpace s) with
      ⟨rest, ht, ht'⟩ | ⟨hclose, hclose'⟩
    · have hlt : rest.length < s.length := length_lt_of_skipSpace ht
      rw [closeValue_record_brace (hskip.trans ht'), closeValue_record_brace ht]
      exact closeValue_append_blank _ _ rest hm
    · rw [closeValue_record_other (hskip ▸ hcomma') (hskip ▸ hclose')]
      exact regardless_error _ _
termination_by s.length

theorem readName_append_blank (frames : List Frame) (fields : Fields String Datum) (s : List Char)
    {blank : List Char} (hb : ∀ c ∈ blank, isSpace c = true) :
    Regardless (readName frames fields (s ++ blank)) (readName frames fields s) := by
  rcases begins_or_not hb (c := '\x22') rfl s with ⟨rest, hs, he⟩ | ⟨hquote, hquote'⟩
  · intro d last h
    rw [he, readName_quote] at h
    obtain ⟨⟨chars, behind⟩, hread, hcolon⟩ := bind_eq_ok_iff.1 h
    obtain ⟨before, rfl, hbefore⟩ := readString_append_blank hb _ ('\x22' :: rest) _ _ _ hread
    obtain ⟨more, hm, hskip⟩ := skipSpace_append_blank hb before
    simp only [hskip] at hcolon
    rw [hs, readName_quote, hbefore, ok_bind]
    rcases begins_or_not hm (c := ':') rfl (skipSpace before) with ⟨value, ht, ht'⟩ | ⟨hne, hne'⟩
    · obtain ⟨more', hm', hskip'⟩ := skipSpace_append_blank hm value
      have hlt : (skipSpace value).length < s.length := by
        have hle := length_skipSpace_le value
        have hvalue := length_lt_of_skipSpace ht
        have hstring := length_lt_of_readString hbefore
        have hquote := length_lt_of_cons hs
        omega
      rw [ht', readColon, hskip'] at hcolon
      simp only [ht, readColon]
      exact readValue_append_blank _ (skipSpace value) hm' d last hcolon
    · rw [readColon] at hcolon
      · cases hcolon
      · exact hne'
  · rw [readName_other frames fields hquote']
    exact regardless_error _ _
termination_by s.length

end

theorem readWhole_eq_ok_iff {s : List Char} {d : Datum} :
    readWhole s = .ok d ↔ (∀ rest, s ≠ '\ufeff' :: rest) ∧
      ∃ rest, readValue [] (skipSpace s) = .ok (d, rest) ∧ skipSpace rest = [] := by
  by_cases hmark : ∃ rest, s = '\ufeff' :: rest
  · obtain ⟨rest, rfl⟩ := hmark
    constructor
    · intro h
      cases h
    · exact fun h => absurd rfl (h.1 rest)
  · have hplain : ∀ rest, s ≠ '\ufeff' :: rest := fun rest he => hmark ⟨rest, he⟩
    rw [readWhole]
    · cases readValue [] (skipSpace s) with
      | error fault => simp
      | ok p =>
        simp only [List.isEmpty_iff]
        constructor
        · intro h
          split at h
          · rename_i hrest
            cases h
            exact ⟨hplain, p.2, rfl, hrest⟩
          · cases h
        · rintro ⟨-, _, ⟨⟩, hrest⟩
          exact if_pos hrest
    · exact hplain

/-- A text that is no JSON text is none with white space behind it either. -/
theorem read_append_blank {blank : List Char} (hb : ∀ c ∈ blank, isSpace c = true) {s : List Char}
    {d : Datum} (h : read (String.ofList (s ++ blank)) = .ok d) :
    read (String.ofList s) = .ok d := by
  rw [read, mapError_eq_ok_iff, String.toList_ofList, readWhole_eq_ok_iff] at h ⊢
  obtain ⟨hmark, rest, hread, hrest⟩ := h
  obtain ⟨more, hm, hskip⟩ := skipSpace_append_blank hb s
  rw [hskip] at hread
  obtain ⟨before, more', hm', rfl, hbefore⟩ := readValue_append_blank [] _ hm _ _ hread
  obtain ⟨last, -, hlast⟩ := skipSpace_append_blank hm' before
  rw [hlast] at hrest
  refine ⟨fun rest he => hmark (rest ++ blank) ?_, before, hbefore, ?_⟩
  · rw [he]
    rfl
  · exact (List.append_eq_nil_iff.1 hrest).1

end WordAutomata.Json
