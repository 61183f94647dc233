import WordAutomata.Json.Literal

/-!
# Written strings are read back

Reading the escape of one character gives that character and goes on behind it. The characters of
the supplementary planes are written as two escapes, which are read as one character as long as a
further character follows; behind a written string there is always the closing quote.
-/
namespace WordAutomata.Json

open WordAutomata.Text

theorem hexValue?_hexDigit : ∀ n < 16, hexValue? (hexDigit n) = some n := by decide

theorem hexFour?_hexDigits {n : Nat} (h : n < 0x10000) (rest : List Char) :
    hexFour? (hexDigits 4 n ++ rest) = some (n, rest) := by
  have h₁ := hexValue?_hexDigit (n % 16) (by omega)
  have h₂ := hexValue?_hexDigit (n / 16 % 16) (by omega)
  have h₃ := hexValue?_hexDigit (n / 16 / 16 % 16) (by omega)
  have h₄ := hexValue?_hexDigit (n / 16 / 16 / 16 % 16) (by omega)
  simp only [hexDigits, hexFour?, List.nil_append, List.cons_append, h₁, h₂, h₃, h₄, bind,
    Option.bind_some, Option.some.injEq, Prod.mk.injEq, and_true]
  omega

theorem escapeUnit?_hexDigits {n : Nat} (h : n < 0x10000) {rest : List Char} (hr : rest ≠ []) :
    escapeUnit? (hexDigits 4 n ++ rest) = some (n, rest) := by
  rw [escapeUnit?, hexFour?_hexDigits h, Option.bind_some]
  exact if_neg (by simpa using hr)

/-! ## One step of the reader -/

theorem readString_quote (opening rest : List Char) :
    readString opening ('\x22' :: rest) = .ok ([], rest) := by
  rw [readString]

theorem readString_unicode {unit : Nat} {rest behind : List Char} (opening : List Char)
    (h : escapeUnit? rest = some (unit, behind)) : readString opening ('\\' :: 'u' :: rest) =
      (readString opening (escapedChar unit behind).2).map fun p =>
        ((escapedChar unit behind).1 :: p.1, p.2) := by
  rw [readString]
  split
  · rename_i hn
    rw [h] at hn
    cases hn
  · rename_i hs
    rw [h] at hs
    cases hs
    rfl

theorem readString_letter {c d : Char} (opening rest : List Char) (hc : c ≠ 'u')
    (h : escapedLetter? c = some d) : readString opening ('\\' :: c :: rest) =
      (readString opening rest).map fun p => (d :: p.1, p.2) := by
  rw [readString]
  · rw [h]
  · exact hc

theorem readString_plain {c : Char} (opening rest : List Char) (hq : c ≠ '\x22') (hb : c ≠ '\\')
    (h : ' ' ≤ c) : readString opening (c :: rest) =
      (readString opening rest).map fun p => (c :: p.1, p.2) := by
  rw [readString]
  · exact if_neg (Char.not_lt.2 h)
  all_goals simp_all

/-! ## One escape -/

/-- A character of printable ASCII. -/
def Printable (c : Char) : Prop := ' ' ≤ c ∧ c ≤ '~'

instance : DecidablePred Printable := fun c => inferInstanceAs (Decidable (' ' ≤ c ∧ c ≤ '~'))

theorem printable_of_all {s : List Char} (h : (s.all fun c => decide (Printable c)) = true) :
    ∀ c ∈ s, Printable c := fun c hc => of_decide_eq_true (List.all_eq_true.1 h c hc)

theorem toNat_valid (c : Char) : c.toNat < 0xd800 ∨ 0xdfff < c.toNat ∧ c.toNat < 0x110000 := c.valid

/-- An escaped unit outside the surrogates is its character. -/
theorem escapedChar_toNat {c : Char} (rest : List Char) : escapedChar c.toNat rest = (c, rest) := by
  have hv := toNat_valid c
  rw [escapedChar, if_neg (by omega), if_neg (by omega), Char.ofNat_toNat]

theorem lowSurrogate?_unicodeEscape {unit : Nat} (hlow : 0xdc00 ≤ unit) (hhigh : unit < 0xe000)
    {rest : List Char} (hr : rest ≠ []) :
    lowSurrogate? (unicodeEscape unit ++ rest) = some (unit, rest) := by
  simp only [unicodeEscape, List.cons_append, lowSurrogate?]
  rw [escapeUnit?_hexDigits (by omega) hr, Option.bind_some]
  exact if_pos ⟨hlow, hhigh⟩

/-- The two escaped units of a supplementary character are that character. -/
theorem escapedChar_pair {c : Char} (hc : 0x10000 ≤ c.toNat) {rest : List Char} (hr : rest ≠ []) :
    escapedChar (0xd800 + (c.toNat - 0x10000) / 0x400)
      (unicodeEscape (0xdc00 + (c.toNat - 0x10000) % 0x400) ++ rest) = (c, rest) := by
  have hv := toNat_valid c
  have hsum : 0x10000 + (0xd800 + (c.toNat - 0x10000) / 0x400 - 0xd800) * 0x400 +
      (0xdc00 + (c.toNat - 0x10000) % 0x400 - 0xdc00) = c.toNat := by omega
  rw [escapedChar, if_pos (by omega), lowSurrogate?_unicodeEscape (by omega) (by omega) hr]
  simp only [hsum, Char.ofNat_toNat]

/-- The four ways of writing a character: a letter behind a backslash, the character itself, one
escaped unit, or two. -/
theorem escapeChar_cases (c : Char) :
    (∃ d, escapeChar c = ['\\', d] ∧ escapedLetter? d = some c ∧ d ≠ 'u' ∧ Printable d) ∨
    (escapeChar c = [c] ∧ c ≠ '\x22' ∧ c ≠ '\\' ∧ Printable c) ∨
    (c.toNat < 0x10000 ∧ escapeChar c = unicodeEscape c.toNat) ∨
    (0x10000 ≤ c.toNat ∧ escapeChar c = unicodeEscape (0xd800 + (c.toNat - 0x10000) / 0x400) ++
      unicodeEscape (0xdc00 + (c.toNat - 0x10000) % 0x400)) := by
  unfold escapeChar
  split
  · rename_i hc
    rcases hc with rfl | rfl
    · exact .inl ⟨_, rfl, rfl, by decide, by decide⟩
    · exact .inl ⟨_, rfl, rfl, by decide, by decide⟩
  rename_i hspecial
  iterate 5
    split
    · subst c
      exact .inl ⟨_, rfl, rfl, by decide, by decide⟩
  split
  · rename_i hprintable
    exact .inr (.inl ⟨rfl, fun h => hspecial (.inl h), fun h => hspecial (.inr h), hprintable⟩)
  split
  · rename_i hplane
    exact .inr (.inr (.inl ⟨hplane, rfl⟩))
  · rename_i hplane
    exact .inr (.inr (.inr ⟨by omega, rfl⟩))

/-- Reading begins with the character that was escaped, if anything follows. -/
theorem readString_escapeChar (opening : List Char) (c : Char) {rest : List Char} (hr : rest ≠ []) :
    readString opening (escapeChar c ++ rest) =
      (readString opening rest).map fun p => (c :: p.1, p.2) := by
  have hv := toNat_valid c
  -- Behind four digits the reader wants one more character, which `hr` provides.
  rcases escapeChar_cases c with ⟨d, he, hd, hu, -⟩ | ⟨he, hquote, hslash, hc⟩ | ⟨hplane, he⟩ |
    ⟨hplane, he⟩
  · rw [he]
    exact readString_letter opening rest hu hd
  · rw [he]
    exact readString_plain opening rest hquote hslash hc.1
  · have h := readString_unicode opening (escapeUnit?_hexDigits hplane hr)
    rw [escapedChar_toNat] at h
    rw [he]
    exact h
  · have hne : unicodeEscape (0xdc00 + (c.toNat - 0x10000) % 0x400) ++ rest ≠ [] := by
      simp [unicodeEscape]
    have hunit : 0xd800 + (c.toNat - 0x10000) / 0x400 < 0x10000 := by omega
    have h := readString_unicode opening (escapeUnit?_hexDigits hunit hne)
    rw [escapedChar_pair hplane hr] at h
    rw [he, List.append_assoc]
    exact h

/-- A written string is read back from behind its opening quote, up to behind its closing quote. -/
theorem readString_literal (opening s rest : List Char) :
    readString opening (s.flatMap escapeChar ++ '\x22' :: rest) = .ok (s, rest) := by
  induction s with
  | nil => exact readString_quote opening rest
  | cons c s ih =>
    rw [List.flatMap_cons, List.append_assoc, readString_escapeChar opening c (by simp), ih]
    rfl

/-! ## Written strings are printable -/

theorem printable_hexDigit : ∀ n < 16, Printable (hexDigit n) := by decide

theorem printable_unicodeEscape (unit : Nat) : ∀ d ∈ unicodeEscape unit, Printable d := by
  have hmod : ∀ n, Printable (hexDigit (n % 16)) := fun n => printable_hexDigit _ (by omega)
  have hescape : Printable '\\' ∧ Printable 'u' := by decide
  simp [unicodeEscape, hexDigits, hmod, hescape]

theorem printable_escapeChar (c : Char) : ∀ d ∈ escapeChar c, Printable d := by
  intro d hd
  rcases escapeChar_cases c with ⟨e, he, -, -, hp⟩ | ⟨he, -, -, hp⟩ | ⟨-, he⟩ | ⟨-, he⟩
  · rw [he, List.mem_cons, List.mem_singleton] at hd
    rcases hd with rfl | rfl
    · exact by decide
    · exact hp
  · rw [he, List.mem_singleton] at hd
    exact hd ▸ hp
  · exact printable_unicodeEscape _ d (he ▸ hd)
  · rw [he, List.mem_append] at hd
    exact hd.elim (printable_unicodeEscape _ d) (printable_unicodeEscape _ d)

theorem printable_literalChars (s : List Char) : ∀ d ∈ literalChars s, Printable d := by
  intro d hd
  rw [literalChars, List.cons_append, List.mem_cons, List.mem_append, List.mem_flatMap,
    List.mem_singleton] at hd
  rcases hd with rfl | ⟨c, -, hc⟩ | rfl
  · exact by decide
  · exact printable_escapeChar c d hc
  · exact by decide

end WordAutomata.Json
