/-!
# Binary floating-point numbers

The numbers of the 64-bit binary format with exact integer arithmetic: a finite number is
`significand * 2 ^ exponent` with a significand below `2 ^ 53` and an exponent of at least `-1074`.
Decimals are rounded to the nearest number, ties to the even significand. The shortest decimal of a
number has the fewest digits among the decimals that round to it, and among those it is the nearest.
-/
namespace WordAutomata

/-- A number of the 64-bit binary format. -/
inductive Binary64 where
  /-- Not a number. -/
  | nan
  /-- An infinity. -/
  | infinite (negative : Bool)
  /-- The number `significand * 2 ^ exponent`, with a sign that zero has too. -/
  | finite (negative : Bool) (significand : Nat) (exponent : Int)
deriving DecidableEq, Inhabited, Repr

namespace Binary64

/-- The least exponent. -/
def minExponent : Int := -1074

/-- The exponent of the greatest finite numbers. -/
def maxExponent : Int := 971

/-- The bound on significands. -/
def bound : Nat := Nat.pow 2 53

/-- The least significand of a number that is not subnormal. -/
def leastNormal : Nat := Nat.pow 2 52

/-- A power with an integer exponent, as the factors of a numerator and a denominator. -/
def powers (base : Nat) (exponent : Int) : Nat × Nat :=
  let power := Nat.pow base exponent.natAbs
  if exponent < 0 then (1, power) else (power, 1)

/-- The quotient of two numbers rounded to the nearest integer, ties to the even one. -/
def roundQuotient (numerator denominator : Nat) : Nat :=
  let quotient := numerator / denominator
  let remainder := numerator % denominator
  if denominator < 2 * remainder ∨ (2 * remainder = denominator ∧ quotient % 2 = 1) then
    quotient + 1
  else quotient

/-- A significand of at most `2 ^ 53` with its exponent, as a number of the format. -/
def pack (negative : Bool) (significand : Nat) (exponent : Int) : Binary64 :=
  let (significand, exponent) :=
    if significand = bound then (leastNormal, exponent + 1) else (significand, exponent)
  if maxExponent < exponent then .infinite negative else .finite negative significand exponent

/-- The number nearest to a positive fraction. -/
def ofFraction (negative : Bool) (numerator denominator : Nat) : Binary64 :=
  let low : Int := numerator.log2 - denominator.log2 - 53
  let scaled (exponent : Int) : Nat × Nat :=
    let (up, down) := powers 2 exponent
    (numerator * down, denominator * up)
  let exponent :=
    let (n, d) := scaled low
    max minExponent (if n < d * bound then low else low + 1)
  let (n, d) := scaled exponent
  pack negative (roundQuotient n d) exponent

/-- The number nearest to `digits * 10 ^ exponent`. -/
def ofDecimal (negative : Bool) (digits : Nat) (exponent : Int) : Binary64 :=
  let magnitude : Int := (Nat.toDigits 10 digits).length + exponent
  if digits = 0 ∨ magnitude < -330 then .finite negative 0 minExponent
  else if 320 < magnitude then .infinite negative
  else
    let (up, down) := powers 10 exponent
    ofFraction negative (digits * up) down

/-- Whether `numerator / denominator` lies among the reals that round to the finite number; the
ends of that interval belong to it when the significand is even. -/
def roundsTo (significand : Nat) (exponent : Int) (numerator denominator : Nat) : Bool :=
  let (up, down) := powers 2 (exponent - 2)
  let below := if significand = leastNormal ∧ minExponent < exponent then 1 else 2
  let low := (4 * significand - below) * up * denominator
  let high := (4 * significand + 2) * up * denominator
  let value := numerator * down
  if significand % 2 = 0 then low ≤ value && value ≤ high else low < value && value < high

/-- The multiple of a power of ten that is nearest to the number among its two neighbours, if one of
them rounds to the number; of two equally near ones the one with an even last digit. -/
def nearestMultiple? (significand : Nat) (exponent power : Int) : Option Nat :=
  let (up, down) := powers 2 exponent
  let (tenUp, tenDown) := powers 10 power
  let numerator := significand * up * tenDown
  let denominator := down * tenUp
  let near := roundQuotient numerator denominator
  let far := if numerator / denominator = near then near + 1 else near - 1
  [near, far].find? fun n => roundsTo significand exponent (n * tenUp) tenDown

/-- The least power of ten above a positive finite number. -/
def magnitude (significand : Nat) (exponent : Int) : Int :=
  let (up, down) := powers 2 exponent
  let numerator := significand * up
  let guess : Int := (Nat.toDigits 10 numerator).length - (Nat.toDigits 10 down).length
  let (tenUp, tenDown) := powers 10 guess
  if down * tenUp ≤ numerator * tenDown then guess + 1 else guess

/-- A decimal `0.d₁d₂… * 10 ^ point`, given by its digits. -/
structure Decimal where
  digits : List Char
  point : Int

/-- The decimal `number * 10 ^ power`, without trailing zeros. -/
def Decimal.ofMultiple (number : Nat) (power : Int) : Decimal :=
  let digits := Nat.toDigits 10 number
  ⟨(digits.reverse.dropWhile (· = '0')).reverse, digits.length + power⟩

/-- The shortest decimal of a finite number; seventeen digits always suffice. -/
def shortest (significand : Nat) (exponent : Int) : Decimal :=
  if significand = 0 then ⟨['0'], 1⟩
  else
    let top := magnitude significand exponent
    let found := (List.range 17).findSome? fun count =>
      let power := top - (count + 1 : Nat)
      (nearestMultiple? significand exponent power).map (Decimal.ofMultiple · power)
    found.getD ⟨['0'], 1⟩

end Binary64
end WordAutomata
