import Mathlib.Algebra.Ring.Nat
import WordAutomata.Datum
import WordAutomata.Proofs.Json.Literal
import WordAutomata.Proofs.Text.Decimal

/-!
# Quoted names can be told apart

A quoted name begins with its quote, and behind that the characters of the name can be read back one
by one: only an escape begins with a backslash, and the letter behind it says how many digits
follow. A quote within a name is escaped, so the name ends at the first quote that is not. So
distinct names have distinct quoted forms, and so have distinct lists of names. The first character
of a quoted scalar shows its kind as well, so distinct scalars have distinct quoted forms.
-/
namespace WordAutomata

namespace Text

/-! ## Hexadecimal numerals -/

/-- The number that hexadecimal digits spell. -/
def hexNumber (digits : List Char) : Nat :=
  digits.foldl (fun n c => 16 * n + (hexValue? c).getD 0) 0

theorem length_hexDigits (width n : Nat) : (hexDigits width n).length = width := by
  induction width generalizing n with
  | zero => rfl
  | succ width ih => rw [hexDigits, List.length_append, ih, List.length_singleton]

theorem hexNumber_hexDigits (width n : Nat) : hexNumber (hexDigits width n) = n % 16 ^ width := by
  induction width generalizing n with
  | zero => simp [hexDigits, hexNumber, Nat.mod_one]
  | succ width ih =>
    have hdigit : hexValue? (hexDigit (n % 16)) = some (n % 16) :=
      Json.hexValue?_hexDigit _ (Nat.mod_lt _ (by decide))
    have hfront := ih (n / 16)
    rw [hexNumber] at hfront ⊢
    rw [hexDigits, List.foldl_append, hfront, List.foldl_cons, List.foldl_nil, hdigit,
      Option.getD_some, Nat.pow_succ, Nat.mul_comm (16 ^ width), Nat.mod_mul]
    omega

/-! ## Reading a quoted name -/

/-- The number of digits behind a letter that a backslash stands before. -/
def escapeWidth? (letter : Char) : Option Nat :=
  if letter = 'x' then some 2 else if letter = 'u' then some 4
  else if letter = 'U' then some 8 else none

/-- The character that a letter without digits stands for behind a backslash. -/
def namedChar (letter : Char) : Char :=
  if letter = 'n' then '\n' else if letter = 'r' then '\r'
  else if letter = 't' then '\t' else letter

/-- The character whose quoted form stands at the front of a text, and the text behind it. -/
def unquoteChar? : List Char → Option (Char × List Char)
  | [] => none
  | ['\\'] => none
  | '\\' :: letter :: rest =>
    match escapeWidth? letter with
    | some width => some (Char.ofNat (hexNumber (rest.take width)), rest.drop width)
    | none => some (namedChar letter, rest)
  | c :: rest => some (c, rest)

theorem unquoteChar?_plain {c : Char} (hc : c ≠ '\\') (rest : List Char) :
    unquoteChar? (c :: rest) = some (c, rest) := by
  rw [unquoteChar?]
  all_goals simp_all

theorem unquoteChar?_named {letter : Char} (h : escapeWidth? letter = none) (rest : List Char) :
    unquoteChar? ('\\' :: letter :: rest) = some (namedChar letter, rest) := by
  rw [unquoteChar?, h]

theorem unquoteChar?_digits {letter : Char} {width : Nat} (h : escapeWidth? letter = some width)
    {c : Char} (hc : c.toNat < 16 ^ width) (rest : List Char) :
    unquoteChar? ('\\' :: letter :: (hexDigits width c.toNat ++ rest)) = some (c, rest) := by
  have hlen := length_hexDigits width c.toNat
  rw [unquoteChar?, h]
  simp only [List.take_left' hlen, List.drop_left' hlen]
  rw [hexNumber_hexDigits, Nat.mod_eq_of_lt hc, Char.ofNat_toNat]

theorem quoteFor_cases (name : List Char) :
    quoteFor name = apostrophe ∨ quoteFor name = doubleQuote := by
  unfold quoteFor
  split
  · exact .inr rfl
  · exact .inl rfl

/-- Reading begins with the character that was quoted. -/
theorem unquoteChar?_quoteChar {quote : Char} (hquote : quote = apostrophe ∨ quote = doubleQuote)
    (c : Char) (rest : List Char) : unquoteChar? (quoteChar quote c ++ rest) = some (c, rest) := by
  unfold quoteChar
  split
  · rename_i hc
    have hletter : escapeWidth? c = none ∧ namedChar c = c := by
      rcases hc with rfl | rfl
      · rcases hquote with rfl | rfl <;> decide
      · decide
    rw [List.cons_append, List.cons_append, List.nil_append, unquoteChar?_named hletter.1,
      hletter.2]
  rename_i hspecial
  iterate 3
    split
    · subst c
      exact unquoteChar?_named rfl rest
  have hbound : c.toNat < 0x110000 := by
    have hv := Json.toNat_valid c
    omega
  split
  · exact unquoteChar?_plain (fun h => hspecial (.inr h)) rest
  split
  · rename_i hsmall
    exact unquoteChar?_digits rfl hsmall rest
  split
  · rename_i hplane
    exact unquoteChar?_digits rfl hplane rest
  · exact unquoteChar?_digits rfl (Nat.lt_trans hbound (by decide)) rest

/-- A quote within a name is escaped, so the form of no character begins with the quote. -/
theorem quoteChar_append_ne {quote : Char} (hquote : quote = apostrophe ∨ quote = doubleQuote)
    (c : Char) (rest behind : List Char) : quoteChar quote c ++ rest ≠ quote :: behind := by
  intro h
  have hplain : unquoteChar? (quote :: behind) = some (quote, behind) := by
    refine unquoteChar?_plain ?_ behind
    rcases hquote with rfl | rfl <;> decide
  have hread := unquoteChar?_quoteChar hquote c rest
  rw [h, hplain] at hread
  obtain ⟨rfl, rfl⟩ := Prod.mk.inj (Option.some.inj hread)
  rw [quoteChar, if_pos (.inl rfl)] at h
  exact List.cons_ne_self _ _ (List.cons.inj h).2

/-- A name ends at its quote, whatever stands behind it. -/
theorem eq_of_flatMap_quoteChar_append {quote : Char}
    (hquote : quote = apostrophe ∨ quote = doubleQuote) {s t rest behind : List Char}
    (h : s.flatMap (quoteChar quote) ++ quote :: rest =
      t.flatMap (quoteChar quote) ++ quote :: behind) : s = t ∧ rest = behind := by
  induction s generalizing t with
  | nil =>
    cases t with
    | nil => exact ⟨rfl, (List.cons.inj h).2⟩
    | cons d t =>
      rw [List.flatMap_cons, List.append_assoc] at h
      exact absurd h.symm (quoteChar_append_ne hquote d _ rest)
  | cons c s ih =>
    rw [List.flatMap_cons, List.append_assoc] at h
    cases t with
    | nil => exact absurd h (quoteChar_append_ne hquote c _ behind)
    | cons d t =>
      rw [List.flatMap_cons, List.append_assoc] at h
      have hc := unquoteChar?_quoteChar hquote c (s.flatMap (quoteChar quote) ++ quote :: rest)
      rw [h, unquoteChar?_quoteChar hquote] at hc
      obtain ⟨rfl, hbehind⟩ := Prod.mk.inj (Option.some.inj hc)
      obtain ⟨rfl, hrest⟩ := ih hbehind.symm
      exact ⟨rfl, hrest⟩

theorem toList_quoted (name : String) :
    (quoted name).toList = quoteFor name.toList ::
      (name.toList.flatMap (quoteChar (quoteFor name.toList)) ++ [quoteFor name.toList]) :=
  String.toList_ofList

/-- A quoted name at the front of a text can be told from what stands behind it. -/
theorem eq_of_quoted_append {s t : String} {rest behind : List Char}
    (h : (quoted s).toList ++ rest = (quoted t).toList ++ behind) : s = t ∧ rest = behind := by
  simp only [toList_quoted, List.cons_append, List.append_assoc, List.nil_append] at h
  obtain ⟨hquote, hbody⟩ := List.cons.inj h
  rw [hquote] at hbody
  obtain ⟨hname, hrest⟩ := eq_of_flatMap_quoteChar_append (quoteFor_cases t.toList) hbody
  exact ⟨String.toList_injective hname, hrest⟩

/-- Distinct names have distinct quoted forms. -/
theorem quoted_injective : Function.Injective quoted := by
  intro s t h
  have hchars : (quoted s).toList ++ [] = (quoted t).toList ++ [] := by rw [h]
  exact (eq_of_quoted_append hchars).1

/-! ## Lists of quoted names -/

/-- What stands behind the first name of a list: every other one behind a comma and a space. -/
def quotedBehind (names : List String) : List Char :=
  names.flatMap fun a => ',' :: ' ' :: (quoted a).toList

theorem quotedBehind_cons (a : String) (names : List String) : quotedBehind (a :: names) =
    ',' :: ' ' :: ((quoted a).toList ++ quotedBehind names) := by
  simp only [quotedBehind, List.flatMap_cons, List.cons_append]

theorem toList_quotedList_cons (a : String) (names : List String) :
    (quotedList (a :: names)).toList = (quoted a).toList ++ quotedBehind names := by
  have hcomma : ", ".toList = [',', ' '] := by decide
  induction names generalizing a with
  | nil =>
    rw [quotedList, List.map_singleton, String.intercalate_singleton, quotedBehind,
      List.flatMap_nil, List.append_nil]
  | cons b names ih =>
    have hrest := ih b
    rw [quotedList, List.map_cons] at hrest
    rw [quotedList, List.map_cons, List.map_cons, String.intercalate_cons_cons,
      String.toList_append, String.toList_append, hrest, hcomma, quotedBehind_cons]
    simp only [List.append_assoc, List.cons_append, List.nil_append]

theorem quotedBehind_injective : Function.Injective quotedBehind := by
  intro as bs h
  induction as generalizing bs with
  | nil =>
    cases bs with
    | nil => rfl
    | cons b bs => cases h
  | cons a as ih =>
    cases bs with
    | nil => cases h
    | cons b bs =>
      rw [quotedBehind_cons, quotedBehind_cons] at h
      obtain ⟨rfl, hrest⟩ := eq_of_quoted_append (List.cons.inj (List.cons.inj h).2).2
      rw [ih hrest]

/-- Distinct lists of names have distinct forms: a comma within a name stands between its quotes. -/
theorem quotedList_injective : Function.Injective quotedList := by
  have hne : ∀ a names, quotedList [] ≠ quotedList (a :: names) := by
    intro a names h
    have hchars := congrArg String.toList h
    rw [toList_quotedList_cons, toList_quoted] at hchars
    cases hchars
  intro as bs h
  cases as with
  | nil =>
    cases bs with
    | nil => rfl
    | cons b bs => exact absurd h (hne b bs)
  | cons a as =>
    cases bs with
    | nil => exact absurd h.symm (hne a as)
    | cons b bs =>
      have hchars := congrArg String.toList h
      rw [toList_quotedList_cons, toList_quotedList_cons] at hchars
      obtain ⟨rfl, hrest⟩ := eq_of_quoted_append hchars
      rw [quotedBehind_injective hrest]

end Text

namespace Datum

open WordAutomata.Text

/-- A datum that messages show in full: a name, an integer, a truth value or nothing, but neither a
list, nor a record, nor a real number. -/
def IsScalar : Datum → Prop
  | list _ | record _ | real _ => False
  | _ => True

/-- The kind of scalar that a quoted form shows by its first character. -/
def shownKind : List Char → String
  | 'N' :: _ => null.kindName
  | 'T' :: _ => (bool true).kindName
  | 'F' :: _ => (bool false).kindName
  | '\x27' :: _ => (text "").kindName
  | '\x22' :: _ => (text "").kindName
  | _ => (int 0).kindName

theorem shownKind_decimal (i : Int) : shownKind (decimal i).toList = (int i).kindName := by
  have hmem : ∀ c ∈ (decimal i).toList, c.isDigit = true ∨ c = '-' := by
    intro c hc
    rw [toList_decimal] at hc
    exact isDigit_or_eq_minus hc
  cases hchars : (decimal i).toList with
  | nil => rfl
  | cons c rest =>
    have hc := hmem c (hchars ▸ List.mem_cons_self)
    rw [shownKind]
    · rfl
    all_goals
      rintro _ ⟨⟩
      revert hc
      decide

/-- The kind of a scalar can be read off its quoted form. -/
theorem shownKind_quoted {d : Datum} (hd : d.IsScalar) :
    shownKind d.quoted.toList = d.kindName := by
  cases d with
  | null => rfl
  | bool b => cases b <;> rfl
  | int i => exact shownKind_decimal i
  | real _ => exact hd.elim
  | text s =>
    rw [quoted, toList_quoted]
    rcases quoteFor_cases s.toList with hquote | hquote <;> rw [hquote] <;> rfl
  | list _ => exact hd.elim
  | record _ => exact hd.elim

/-- Distinct scalars have distinct quoted forms. -/
theorem eq_of_quoted_eq {d e : Datum} (hd : d.IsScalar) (he : e.IsScalar)
    (h : d.quoted = e.quoted) : d = e := by
  have hkind : d.kindName = e.kindName := by
    rw [← shownKind_quoted hd, ← shownKind_quoted he, h]
  cases d with
  | null =>
    cases e with
    | null => rfl
    | _ => simp [kindName] at hkind
  | bool a =>
    cases e with
    | bool b => cases a <;> cases b <;> first | rfl | exact absurd h (by decide)
    | _ => simp [kindName] at hkind
  | int i =>
    cases e with
    | int j => rw [decimal_injective h]
    | _ => simp [kindName] at hkind
  | real _ => exact hd.elim
  | text s =>
    cases e with
    | text t => rw [quoted_injective h]
    | _ => simp [kindName] at hkind
  | list _ => exact hd.elim
  | record _ => exact hd.elim

end Datum
end WordAutomata
