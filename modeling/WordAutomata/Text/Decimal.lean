/-!
# Decimal numerals

The decimal spelling of natural numbers and integers: no leading zeros, and a minus sign before a
negative number.
-/
namespace WordAutomata.Text

/-- The decimal digits of a natural number. -/
def natDigits (n : Nat) : List Char := Nat.toDigits 10 n

/-- The decimal spelling of an integer. -/
def intDigits : Int → List Char
  | .ofNat n => natDigits n
  | .negSucc n => '-' :: natDigits (n + 1)

/-- The decimal spelling of an integer, as a text. -/
def decimal (i : Int) : String := String.ofList (intDigits i)

end WordAutomata.Text
