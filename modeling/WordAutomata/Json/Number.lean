import WordAutomata.Datum

/-!
# Numbers in JSON texts

A number is an optional minus sign, an integer part without superfluous zeros, and optionally a
fraction and an exponent. Without fraction and exponent it is an integer of any size, otherwise the
nearest binary floating-point number. A real number is written as its shortest decimal: positional
from `1e-4` up to below `1e16`, with an exponent of at least two digits outside that range.
-/
namespace WordAutomata.Json

open WordAutomata.Text

/-- The number that a run of ASCII digits spells. -/
def digitsNumber (digits : List Char) : Nat :=
  digits.foldl (fun n c => 10 * n + (c.toNat - 48)) 0

/-- The integer part at the front of a text: a single zero, or digits that begin with another
one. -/
def integerPart? : List Char → Option (List Char × List Char)
  | c :: rest =>
    if c = '0' then some (['0'], rest)
    else if c.isDigit then some (c :: rest.takeWhile Char.isDigit, rest.dropWhile Char.isDigit)
    else none
  | [] => none

/-- The digits of a fraction at the front of a text, none if there is no fraction. -/
def fractionPart (s : List Char) : List Char × List Char :=
  match s with
  | '.' :: rest =>
    if (rest.takeWhile Char.isDigit).isEmpty then ([], s)
    else (rest.takeWhile Char.isDigit, rest.dropWhile Char.isDigit)
  | _ => ([], s)

/-- The sign at the front of an exponent. -/
def exponentSign : List Char → Bool × List Char
  | '-' :: rest => (true, rest)
  | '+' :: rest => (false, rest)
  | rest => (false, rest)

/-- The exponent at the front of a text, if there is one. -/
def exponentPart (s : List Char) : Option Int × List Char :=
  match s with
  | c :: rest =>
    if c = 'e' ∨ c = 'E' then
      let (negative, rest) := exponentSign rest
      let digits := rest.takeWhile Char.isDigit
      if digits.isEmpty then (none, s)
      else
        let n : Int := digitsNumber digits
        (some (if negative then -n else n), rest.dropWhile Char.isDigit)
    else (none, s)
  | [] => (none, s)

/-- An unsigned number at the front of a text. -/
def unsigned? (negative : Bool) (s : List Char) : Option (Datum × List Char) := do
  let (whole, rest) ← integerPart? s
  let (fraction, rest) := fractionPart rest
  let (exponent, rest) := exponentPart rest
  if fraction.isEmpty ∧ exponent.isNone then
    let n : Int := digitsNumber whole
    some (.int (if negative then -n else n), rest)
  else
    let digits := digitsNumber (whole ++ fraction)
    some (.real (.ofDecimal negative digits (exponent.getD 0 - fraction.length)), rest)

/-- The longest number at the front of a text. -/
def number? : List Char → Option (Datum × List Char)
  | '-' :: rest => unsigned? true rest
  | s => unsigned? false s

/-- An exponent with its sign and at least two digits. -/
def exponentDigits (exponent : Int) : List Char :=
  let digits := natDigits exponent.natAbs
  (if exponent < 0 then '-' else '+') :: (if digits.length < 2 then '0' :: digits else digits)

def decimalChars (d : Binary64.Decimal) : List Char :=
  let count : Int := d.digits.length
  if d.point ≤ -4 ∨ 16 < d.point then
    let fraction := d.digits.drop 1
    d.digits.take 1 ++ (if fraction.isEmpty then [] else '.' :: fraction) ++
      'e' :: exponentDigits (d.point - 1)
  else if d.point ≤ 0 then
    '0' :: '.' :: List.replicate (-d.point).toNat '0' ++ d.digits
  else if count ≤ d.point then
    d.digits ++ List.replicate (d.point - count).toNat '0' ++ ['.', '0']
  else d.digits.take d.point.toNat ++ '.' :: d.digits.drop d.point.toNat

def realChars : Binary64 → List Char
  | .nan => "NaN".toList
  | .infinite false => "Infinity".toList
  | .infinite true => "-Infinity".toList
  | .finite negative significand exponent =>
    (if negative then ['-'] else []) ++ decimalChars (Binary64.shortest significand exponent)

end WordAutomata.Json
