import Mathlib.Data.List.Forall2
import Mathlib.Data.Nat.Digits.Defs
import WordAutomata.Text.Digit

/-!
# What digits of every script spell

The digits of a script follow its zero, and the zeros of two scripts are at least ten apart. So a
character is a digit of one value at most, and a text of digits spells one number in base ten,
whatever scripts its digits are of.
-/
namespace WordAutomata.Text

/-- A character is the decimal digit of some script with a value. -/
def IsDigit (c : Char) (value : Nat) : Prop :=
  value < 10 ∧ ∃ first ∈ digitZeros, c.toNat = first + value

/-- One or more digits spell a number, the most significant one first. -/
def Spells (text : List Char) (number : Nat) : Prop :=
  text ≠ [] ∧ ∃ values, List.Forall₂ IsDigit text values ∧
    number = Nat.ofDigits 10 values.reverse

theorem digitZeros_spaced : digitZeros.Pairwise fun a b => a + 10 ≤ b := by decide

/-- The digits of different scripts do not overlap. -/
theorem digitZeros_unique {a b n : Nat} (ha : a ∈ digitZeros) (hb : b ∈ digitZeros)
    (han : a ≤ n ∧ n < a + 10) (hbn : b ≤ n ∧ n < b + 10) : a = b := by
  refine List.Pairwise.forall_of_forall_of_flip
    (R := fun a b => a ≤ n ∧ n < a + 10 → b ≤ n ∧ n < b + 10 → a = b) ?_ ?_ ?_ ha hb han hbn
  · exact fun _ _ _ _ => rfl
  · refine digitZeros_spaced.imp ?_
    intro a b hab han hbn
    omega
  · refine digitZeros_spaced.imp ?_
    intro a b hab hbn han
    omega

theorem digitValue?_eq_some_iff {c : Char} {d : Nat} : digitValue? c = some d ↔ IsDigit c d := by
  rw [digitValue?, Option.map_eq_some_iff]
  constructor
  · intro hvalue
    obtain ⟨first, hfind, rfl⟩ := hvalue
    have hrange := List.find?_some hfind
    simp only [Bool.and_eq_true, decide_eq_true_eq] at hrange
    exact ⟨by omega, first, List.mem_of_find?_eq_some hfind, by omega⟩
  · intro hdigit
    obtain ⟨hd, first, hfirst, hc⟩ := hdigit
    cases hfind : digitZeros.find? fun first => first ≤ c.toNat && c.toNat < first + 10 with
    | none =>
      have hnone := List.find?_eq_none.1 hfind first hfirst
      simp only [Bool.and_eq_true, decide_eq_true_eq] at hnone
      omega
    | some found =>
      have hrange := List.find?_some hfind
      simp only [Bool.and_eq_true, decide_eq_true_eq] at hrange
      have hsame : found = first :=
        digitZeros_unique (List.mem_of_find?_eq_some hfind) hfirst hrange (by omega)
      exact ⟨found, rfl, by omega⟩

/-- Reading digits behind a number multiplies it by ten for every digit. -/
theorem digitsValueFrom?_eq_some_iff {text : List Char} : ∀ {number result : Nat},
    digitsValueFrom? number text = some result ↔ ∃ values, List.Forall₂ IsDigit text values ∧
      result = values.foldl (fun n d => 10 * n + d) number := by
  induction text with
  | nil =>
    intro number result
    simp [digitsValueFrom?, eq_comm]
  | cons c text ih =>
    intro number result
    simp only [digitsValueFrom?, Option.bind_eq_some_iff, digitValue?_eq_some_iff, ih,
      List.forall₂_cons_left_iff]
    constructor
    · intro hread
      obtain ⟨d, hd, values, hvalues, rfl⟩ := hread
      exact ⟨d :: values, ⟨d, values, hd, hvalues, rfl⟩, rfl⟩
    · intro hspelled
      obtain ⟨_, ⟨d, values, hd, hvalues, rfl⟩, rfl⟩ := hspelled
      exact ⟨d, hd, values, hvalues, rfl⟩

theorem ofDigits_reverse (values : List Nat) :
    Nat.ofDigits 10 values.reverse = values.foldl (fun n d => 10 * n + d) 0 := by
  rw [Nat.ofDigits_eq_foldr, List.foldr_reverse]
  simp [Nat.add_comm]

theorem digitsValue?_eq_some_iff {text : List Char} {number : Nat} :
    digitsValue? text = some number ↔ Spells text number := by
  rw [digitsValue?, Spells]
  cases text with
  | nil => simp
  | cons c text =>
    simp only [List.isEmpty_cons, Bool.false_eq_true, if_false, digitsValueFrom?_eq_some_iff,
      ofDigits_reverse, ne_eq, reduceCtorEq, not_false_eq_true, true_and]

/-- A text spells one number. -/
theorem Spells.unique {text : List Char} {m n : Nat} (hm : Spells text m) (hn : Spells text n) :
    m = n :=
  Option.some.inj ((digitsValue?_eq_some_iff.2 hm).symm.trans (digitsValue?_eq_some_iff.2 hn))

/-- A number is spelled with digits only. -/
theorem Spells.isSome_digitValue? {text : List Char} {n : Nat} (h : Spells text n) :
    ∀ c ∈ text, (digitValue? c).isSome = true := by
  obtain ⟨-, values, hvalues, -⟩ := h
  induction hvalues with
  | nil => exact List.forall_mem_nil _
  | cons hd _ ih =>
    exact List.forall_mem_cons.2 ⟨Option.isSome_of_eq_some (digitValue?_eq_some_iff.2 hd), ih⟩

end WordAutomata.Text
