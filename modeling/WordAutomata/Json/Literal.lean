import WordAutomata.Json.Fault
import WordAutomata.Text.Hex

/-!
# Strings in JSON texts

A string is written in printable ASCII: the double quote and the backslash are escaped, five control
characters have letters of their own, and every other character outside printable ASCII is written
as one four-digit escape, or as two of them for a surrogate pair. Reading accepts every escape of
the format, and takes a pair of surrogate escapes for one character. A surrogate escape that is not
part of a pair stands for no character and is read as U+FFFD.
-/
namespace WordAutomata.Json

open WordAutomata.Text

def unicodeEscape (unit : Nat) : List Char := '\\' :: 'u' :: hexDigits 4 unit

/-- One character of a written string. -/
def escapeChar (c : Char) : List Char :=
  if c = '\x22' ∨ c = '\\' then ['\\', c]
  else if c = '\n' then ['\\', 'n']
  else if c = '\r' then ['\\', 'r']
  else if c = '\t' then ['\\', 't']
  else if c = '\x08' then ['\\', 'b']
  else if c = '\x0c' then ['\\', 'f']
  else if ' ' ≤ c ∧ c ≤ '~' then [c]
  else if c.toNat < 0x10000 then unicodeEscape c.toNat
  else
    unicodeEscape (0xd800 + (c.toNat - 0x10000) / 0x400) ++
      unicodeEscape (0xdc00 + (c.toNat - 0x10000) % 0x400)

def literalChars (s : List Char) : List Char := '\x22' :: s.flatMap escapeChar ++ ['\x22']

/-- The character that a letter stands for behind a backslash. -/
def escapedLetter? (c : Char) : Option Char :=
  if c = '\x22' ∨ c = '\\' ∨ c = '/' then some c
  else if c = 'n' then some '\n'
  else if c = 'r' then some '\r'
  else if c = 't' then some '\t'
  else if c = 'b' then some '\x08'
  else if c = 'f' then some '\x0c'
  else none

/-- The four digits of an escape at the front of a text. At least one more character must follow. -/
def escapeUnit? (s : List Char) : Option (Nat × List Char) :=
  (hexFour? s).bind fun (unit, rest) => if rest.isEmpty then none else some (unit, rest)

/-- The low surrogate whose escape stands at the front of a text. -/
def lowSurrogate? : List Char → Option (Nat × List Char)
  | '\\' :: 'u' :: rest =>
    (escapeUnit? rest).bind fun (unit, behind) =>
      if 0xdc00 ≤ unit ∧ unit < 0xe000 then some (unit, behind) else none
  | _ => none

/-- The character that begins with an escaped unit, and the text behind it. -/
def escapedChar (unit : Nat) (rest : List Char) : Char × List Char :=
  if 0xd800 ≤ unit ∧ unit < 0xdc00 then
    match lowSurrogate? rest with
    | some (low, behind) =>
      (Char.ofNat (0x10000 + (unit - 0xd800) * 0x400 + (low - 0xdc00)), behind)
    | none => ('\ufffd', rest)
  else if 0xdc00 ≤ unit ∧ unit < 0xe000 then ('\ufffd', rest)
  else (Char.ofNat unit, rest)

theorem length_lt_of_hexFour? {s rest : List Char} {n : Nat} (h : hexFour? s = some (n, rest)) :
    rest.length < s.length := by
  unfold hexFour? at h
  split at h
  · simp only [bind, Option.bind_eq_some_iff, Option.some.injEq, Prod.mk.injEq] at h
    obtain ⟨_, _, _, _, _, _, _, _, -, rfl⟩ := h
    simp only [List.length_cons]
    omega
  · simp at h

theorem length_lt_of_escapeUnit? {s rest : List Char} {n : Nat}
    (h : escapeUnit? s = some (n, rest)) : rest.length < s.length := by
  obtain ⟨⟨m, r⟩, hm, hr⟩ := Option.bind_eq_some_iff.1 h
  simp only at hr
  split at hr
  · simp at hr
  · simp only [Option.some.injEq, Prod.mk.injEq] at hr
    exact hr.2 ▸ length_lt_of_hexFour? hm

theorem length_lt_of_lowSurrogate? {s rest : List Char} {n : Nat}
    (h : lowSurrogate? s = some (n, rest)) : rest.length < s.length := by
  unfold lowSurrogate? at h
  split at h
  · obtain ⟨⟨m, r⟩, hm, hr⟩ := Option.bind_eq_some_iff.1 h
    simp only at hr
    split at hr
    · simp only [Option.some.injEq, Prod.mk.injEq] at hr
      have := length_lt_of_escapeUnit? hm
      rw [← hr.2]
      simp only [List.length_cons]
      omega
    · simp at hr
  · simp at h

theorem length_escapedChar_le (unit : Nat) (rest : List Char) :
    (escapedChar unit rest).2.length ≤ rest.length := by
  unfold escapedChar
  split
  · split
    · rename_i low behind h
      exact Nat.le_of_lt (length_lt_of_lowSurrogate? h)
    · exact Nat.le_refl _
  · split <;> exact Nat.le_refl _

/-- The characters of a string from behind its opening quote to its closing quote, and the text
behind that. `opening` is the text from the opening quote on. -/
def readString (opening s : List Char) : Except Fault (List Char × List Char) :=
  match s with
  | [] => .error ⟨.unterminatedString, opening⟩
  | '\x22' :: rest => .ok ([], rest)
  | ['\\'] => .error ⟨.unterminatedString, opening⟩
  | '\\' :: 'u' :: rest =>
    match _h : escapeUnit? rest with
    | none => .error ⟨.invalidUnicodeEscape, 'u' :: rest⟩
    | some (unit, behind) =>
      (readString opening (escapedChar unit behind).2).map fun (chars, last) =>
        ((escapedChar unit behind).1 :: chars, last)
  | '\\' :: c :: rest =>
    match escapedLetter? c with
    | none => .error ⟨.invalidEscape, '\\' :: c :: rest⟩
    | some d => (readString opening rest).map fun (chars, last) => (d :: chars, last)
  | c :: rest =>
    if c < ' ' then .error ⟨.controlCharacter, c :: rest⟩
    else (readString opening rest).map fun (chars, last) => (c :: chars, last)
termination_by s.length
decreasing_by
  · have := length_lt_of_escapeUnit? _h
    have := length_escapedChar_le unit behind
    simp only [List.length_cons]
    omega
  · simp only [List.length_cons]
    omega
  · simp only [List.length_cons]
    omega

end WordAutomata.Json
