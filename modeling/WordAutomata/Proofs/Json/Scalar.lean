import WordAutomata.Json.Reader

/-!
# Written words and integers are read back

An integer is read as far as digits go. It is read back from its own spelling if the text behind it
does not go on with a digit, a fraction or an exponent.
-/
namespace WordAutomata.Json

open WordAutomata.Text

/-- A text that does not continue a number that stands before it. -/
def Ends (rest : List Char) : Prop :=
  ∀ c, rest.head? = some c → c.isDigit = false ∧ c ≠ '.' ∧ c ≠ 'e' ∧ c ≠ 'E'

theorem ends_nil : Ends [] := by
  intro c h
  cases h

theorem ends_cons {c : Char} {rest : List Char}
    (h : c.isDigit = false ∧ c ≠ '.' ∧ c ≠ 'e' ∧ c ≠ 'E') : Ends (c :: rest) := by
  intro d hd
  cases hd
  exact h

theorem takeWhile_digits {digits rest : List Char} (hd : ∀ c ∈ digits, c.isDigit = true)
    (hr : Ends rest) : (digits ++ rest).takeWhile Char.isDigit = digits ∧
      (digits ++ rest).dropWhile Char.isDigit = rest := by
  rw [List.takeWhile_append_of_pos hd, List.dropWhile_append_of_pos hd]
  cases rest with
  | nil => simp
  | cons c rest =>
    have hc := (hr c rfl).1
    simp [hc]

theorem fractionPart_of_ends {rest : List Char} (hr : Ends rest) :
    fractionPart rest = ([], rest) := by
  unfold fractionPart
  split
  · exact absurd rfl (hr '.' rfl).2.1
  · rfl

theorem exponentPart_of_ends {rest : List Char} (hr : Ends rest) :
    exponentPart rest = (none, rest) := by
  cases rest with
  | nil => rfl
  | cons c rest =>
    obtain ⟨-, -, he, hE⟩ := hr c rfl
    rw [exponentPart, if_neg (by simp [he, hE])]

/-! ## Digits -/

theorem isDigit_natDigits (n : Nat) : ∀ c ∈ natDigits n, c.isDigit = true :=
  fun _ hc => Nat.isDigit_of_mem_toDigits (by decide) (by decide) hc

theorem digitsNumber_natDigits (n : Nat) : digitsNumber (natDigits n) = n :=
  Nat.ofDigitChars_ten_toDigits

/-- A positive number does not begin with a zero. -/
theorem natDigits_pos {n : Nat} (hn : 0 < n) : ∃ c digits, natDigits n = c :: digits ∧ c ≠ '0' := by
  induction n using Nat.strongRecOn with
  | ind n ih =>
    by_cases hlt : n < 10
    · have hdigit : ∀ m < 10, 0 < m → Nat.digitChar m ≠ '0' := by decide
      exact ⟨_, [], Nat.toDigits_of_lt_base hlt, hdigit n hlt hn⟩
    · obtain ⟨c, digits, hc, hne⟩ := ih (n / 10) (by omega) (by omega)
      refine ⟨c, digits ++ [Nat.digitChar (n % 10)], ?_, hne⟩
      rw [natDigits, Nat.toDigits_of_base_le (by decide) (by omega)]
      exact congrArg (· ++ _) hc

theorem integerPart?_natDigits (n : Nat) {rest : List Char} (hr : Ends rest) :
    integerPart? (natDigits n ++ rest) = some (natDigits n, rest) := by
  rcases Nat.eq_zero_or_pos n with rfl | hn
  · rfl
  · obtain ⟨c, digits, hd, hne⟩ := natDigits_pos hn
    have hall := isDigit_natDigits n
    rw [hd] at hall ⊢
    have hc : c.isDigit = true := hall c List.mem_cons_self
    obtain ⟨htake, hdrop⟩ := takeWhile_digits (fun x hx => hall x (List.mem_cons_of_mem _ hx)) hr
    rw [List.cons_append, integerPart?, if_neg hne, if_pos hc, htake, hdrop]

theorem unsigned?_natDigits (negative : Bool) (n : Nat) {rest : List Char} (hr : Ends rest) :
    unsigned? negative (natDigits n ++ rest) =
      some (.int (if negative then -(n : Int) else n), rest) := by
  simp only [unsigned?, integerPart?_natDigits n hr, bind, Option.bind_some,
    fractionPart_of_ends hr, exponentPart_of_ends hr, digitsNumber_natDigits]
  rfl

/-- The first digit of a spelling, which is not the letter of any word. -/
theorem exists_natDigits (n : Nat) :
    ∃ c digits, natDigits n = c :: digits ∧ c.isDigit = true := by
  cases h : natDigits n with
  | nil => exact absurd h Nat.toDigits_ne_nil
  | cons c digits => exact ⟨c, digits, rfl, isDigit_natDigits n c (h ▸ List.mem_cons_self)⟩

/-- An integer begins with its sign or its first digit. -/
theorem intDigits_eq_cons (i : Int) :
    ∃ c digits, intDigits i = c :: digits ∧ (c = '-' ∨ c.isDigit = true) := by
  cases i with
  | ofNat n =>
    obtain ⟨c, digits, hd, hc⟩ := exists_natDigits n
    exact ⟨c, digits, hd, .inr hc⟩
  | negSucc n => exact ⟨'-', natDigits (n + 1), rfl, .inl rfl⟩

theorem number?_intDigits (i : Int) {rest : List Char} (hr : Ends rest) :
    number? (intDigits i ++ rest) = some (.int i, rest) := by
  cases i with
  | ofNat n =>
    have hmatch : number? (natDigits n ++ rest) = unsigned? false (natDigits n ++ rest) := by
      obtain ⟨c, digits, hd, hc⟩ := exists_natDigits n
      rw [hd, List.cons_append]
      unfold number?
      split
      · rename_i h
        cases h
        exact absurd hc (by decide)
      · rfl
    rw [intDigits, hmatch, unsigned?_natDigits false n hr]
    rfl
  | negSucc n =>
    rw [intDigits, List.cons_append, number?, unsigned?_natDigits true (n + 1) hr]
    rfl

/-! ## Words before numbers -/

theorem find?_words_eq_none {s : List Char} (h : ∀ word ∈ words, ¬ word.1 <+: s) :
    words.find? (fun word => word.1.isPrefixOf s) = none := by
  rw [List.find?_eq_none]
  intro word hw hp
  exact h word hw (List.isPrefixOf_iff_prefix.1 hp)

theorem find?_words_digit {c : Char} (hc : c.isDigit = true) (s : List Char) :
    words.find? (fun word => word.1.isPrefixOf (c :: s)) = none := by
  refine find?_words_eq_none ?_
  rintro word hw ⟨rest, hrest⟩
  simp only [words, List.mem_cons, List.not_mem_nil, or_false] at hw
  rcases hw with rfl | rfl | rfl | rfl | rfl | rfl
  all_goals
    cases hrest
    cases hc

theorem find?_words_minus_digit {c : Char} (hc : c.isDigit = true) (s : List Char) :
    words.find? (fun word => word.1.isPrefixOf ('-' :: c :: s)) = none := by
  refine find?_words_eq_none ?_
  rintro word hw ⟨rest, hrest⟩
  simp only [words, List.mem_cons, List.not_mem_nil, or_false] at hw
  rcases hw with rfl | rfl | rfl | rfl | rfl | rfl
  all_goals
    cases hrest
  cases hc

/-- No word stands where an integer is written. -/
theorem scalar?_intDigits (i : Int) {rest : List Char} (hr : Ends rest) :
    scalar? (intDigits i ++ rest) = some (.int i, rest) := by
  have hnone : words.find? (fun word => word.1.isPrefixOf (intDigits i ++ rest)) = none := by
    cases i with
    | ofNat n =>
      obtain ⟨c, digits, hd, hc⟩ := exists_natDigits n
      rw [intDigits, hd]
      exact find?_words_digit hc _
    | negSucc n =>
      obtain ⟨c, digits, hd, hc⟩ := exists_natDigits (n + 1)
      rw [intDigits, hd]
      exact find?_words_minus_digit hc _
  rw [scalar?, hnone]
  exact number?_intDigits i hr

theorem scalar?_null (rest : List Char) :
    scalar? ("null".toList ++ rest) = some (.null, rest) := rfl

theorem scalar?_true (rest : List Char) :
    scalar? ("true".toList ++ rest) = some (.bool true, rest) := rfl

theorem scalar?_false (rest : List Char) :
    scalar? ("false".toList ++ rest) = some (.bool false, rest) := rfl

end WordAutomata.Json
