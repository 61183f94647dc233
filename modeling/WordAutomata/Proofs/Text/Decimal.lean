import WordAutomata.Proofs.Json.Scalar

/-!
# Decimal spellings are unambiguous

Different integers are spelled differently, and a spelling holds digits and the minus sign only. So
a name that is put together from spellings and other characters can be taken apart again.
-/
namespace WordAutomata.Text

theorem natDigits_injective : Function.Injective natDigits := by
  intro m n h
  have hnumber := congrArg Json.digitsNumber h
  rw [Json.digitsNumber_natDigits, Json.digitsNumber_natDigits] at hnumber
  exact hnumber

theorem isDigit_or_eq_minus {i : Int} {c : Char} (h : c ∈ intDigits i) :
    c.isDigit = true ∨ c = '-' := by
  cases i with
  | ofNat n => exact .inl (Json.isDigit_natDigits n c h)
  | negSucc n =>
    rcases List.mem_cons.1 h with rfl | h
    · exact .inr rfl
    · exact .inl (Json.isDigit_natDigits (n + 1) c h)

/-- No number that is not negative is spelled with a sign. -/
theorem natDigits_ne_minus (n : Nat) (rest : List Char) : natDigits n ≠ '-' :: rest := by
  intro h
  have hdigit := Json.isDigit_natDigits n '-' (h ▸ List.mem_cons_self)
  cases hdigit

theorem intDigits_injective : Function.Injective intDigits := by
  intro i j h
  cases i with
  | ofNat m =>
    cases j with
    | ofNat n => exact congrArg Int.ofNat (natDigits_injective h)
    | negSucc n => exact absurd h (natDigits_ne_minus m _)
  | negSucc m =>
    cases j with
    | ofNat n => exact absurd h.symm (natDigits_ne_minus n _)
    | negSucc n =>
      have hdigits := natDigits_injective (List.cons.inj h).2
      rw [Nat.add_right_cancel hdigits]

theorem toList_decimal (i : Int) : (decimal i).toList = intDigits i := String.toList_ofList

theorem decimal_injective : Function.Injective decimal := by
  intro i j h
  refine intDigits_injective ?_
  rw [← toList_decimal, ← toList_decimal, h]

theorem decimal_natCast_injective : Function.Injective fun n : Nat => decimal n :=
  fun _ _ h => Int.ofNat.inj (decimal_injective h)

theorem append_decimal_injective (front : String) :
    Function.Injective fun i : Int => front ++ decimal i := by
  intro i j h
  have hchars := congrArg String.toList h
  simp only [String.toList_append, List.append_right_inj] at hchars
  exact decimal_injective (String.toList_injective hchars)

theorem not_mem_decimal {c : Char} (hdigit : c.isDigit = false) (hminus : c ≠ '-') (i : Int) :
    c ∉ (decimal i).toList := by
  intro h
  rw [toList_decimal] at h
  rcases isDigit_or_eq_minus h with hd | rfl
  · rw [hdigit] at hd
    cases hd
  · exact hminus rfl

/-- The spelling of a natural number begins with a digit. -/
theorem exists_toList_decimal (n : Nat) :
    ∃ c digits, (decimal n).toList = c :: digits ∧ c.isDigit = true := by
  rw [toList_decimal]
  exact Json.exists_natDigits n

/-- A text that does not begin with a digit is no number's spelling. -/
theorem decimal_ne {a : String} (ha : a.toList.head?.any Char.isDigit = false) (n : Nat) :
    decimal n ≠ a := by
  intro h
  obtain ⟨c, digits, hchars, hdigit⟩ := exists_toList_decimal n
  rw [← h, hchars] at ha
  exact absurd hdigit (by simpa using ha)

end WordAutomata.Text
