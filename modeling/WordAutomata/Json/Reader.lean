import WordAutomata.Fields
import WordAutomata.Json.Literal
import WordAutomata.Json.Number

/-!
# Reading JSON texts

A JSON text is read in one pass that keeps the unfinished lists and records on a stack. Besides the
standard's values the words `NaN`, `Infinity` and `-Infinity` are numbers. A name that stands twice
in a record keeps its first place and takes its last value. The first offending place is reported.
-/
namespace WordAutomata.Json

/-- Whether a character is white space between the parts of a JSON text. -/
def isSpace (c : Char) : Bool := c = ' ' || c = '\t' || c = '\n' || c = '\r'

/-- A text without the white space at its front. -/
def skipSpace (s : List Char) : List Char := s.dropWhile isSpace

/-- The words that stand for values. -/
def words : List (List Char × Datum) :=
  [("null".toList, .null), ("true".toList, .bool true), ("false".toList, .bool false),
    ("NaN".toList, .real .nan), ("Infinity".toList, .real (.infinite false)),
    ("-Infinity".toList, .real (.infinite true))]

/-- A word or a number at the front of a text. -/
def scalar? (s : List Char) : Option (Datum × List Char) :=
  match words.find? fun word => word.1.isPrefixOf s with
  | some (word, d) => some (d, s.drop word.length)
  | none => number? s

/-- A list or a record that has not been closed yet. -/
inductive Frame where
  /-- The items before the current one, the last first. -/
  | list (items : List Datum)
  /-- The fields before the current one, whose name is known. -/
  | record (fields : Fields String Datum) (name : String)

theorem length_skipSpace_le (s : List Char) : (skipSpace s).length ≤ s.length :=
  (List.dropWhile_sublist _).length_le

theorem length_lt_of_integerPart? {s rest digits : List Char}
    (h : integerPart? s = some (digits, rest)) : rest.length < s.length := by
  unfold integerPart? at h
  split at h
  · rename_i c r
    split at h
    · cases h
      simp
    · split at h
      · cases h
        have := (List.dropWhile_sublist (l := r) Char.isDigit).length_le
        simp only [List.length_cons]
        omega
      · simp at h
  · simp at h

theorem length_fractionPart_le (s : List Char) : (fractionPart s).2.length ≤ s.length := by
  unfold fractionPart
  split
  · rename_i rest
    split
    · exact Nat.le_refl _
    · have := (List.dropWhile_sublist (l := rest) Char.isDigit).length_le
      simp only [List.length_cons]
      omega
  · exact Nat.le_refl _

theorem length_exponentSign_le (s : List Char) : (exponentSign s).2.length ≤ s.length := by
  unfold exponentSign
  split <;> simp

theorem length_exponentPart_le (s : List Char) : (exponentPart s).2.length ≤ s.length := by
  unfold exponentPart
  split
  · rename_i c rest
    split
    · simp only
      split
      · exact Nat.le_refl _
      · have h₁ := length_exponentSign_le rest
        have h₂ := (List.dropWhile_sublist (l := (exponentSign rest).2) Char.isDigit).length_le
        simp only [List.length_cons]
        omega
    · exact Nat.le_refl _
  · exact Nat.le_refl _

theorem length_lt_of_unsigned? {negative : Bool} {s rest : List Char} {d : Datum}
    (h : unsigned? negative s = some (d, rest)) : rest.length < s.length := by
  unfold unsigned? at h
  obtain ⟨⟨whole, r⟩, hw, h⟩ := Option.bind_eq_some_iff.1 h
  have h₁ := length_lt_of_integerPart? hw
  have h₂ := length_fractionPart_le r
  have h₃ := length_exponentPart_le (fractionPart r).2
  simp only at h
  split at h
  · cases h
    omega
  · cases h
    omega

theorem length_lt_of_scalar? {s rest : List Char} {d : Datum} (h : scalar? s = some (d, rest)) :
    rest.length < s.length := by
  unfold scalar? at h
  split at h
  · rename_i word d' hw
    cases h
    have hmem := List.mem_of_find?_eq_some hw
    have hpre : word <+: s := by simpa using List.find?_some hw
    have hpos : 0 < word.length := by
      simp only [words, List.mem_cons, Prod.mk.injEq, List.not_mem_nil, or_false] at hmem
      rcases hmem with h | h | h | h | h | h <;> rw [h.1] <;> decide
    have := hpre.length_le
    rw [List.length_drop]
    omega
  · unfold number? at h
    split at h
    · have := length_lt_of_unsigned? h
      simp only [List.length_cons]
      omega
    · exact length_lt_of_unsigned? h

theorem length_lt_of_readString {opening s chars rest : List Char}
    (h : readString opening s = .ok (chars, rest)) : rest.length < s.length := by
  fun_induction readString opening s generalizing chars with
  | case1 => cases h
  | case2 => cases h; simp
  | case3 => cases h
  | case4 => cases h
  | case5 r unit behind hu ih =>
    cases hr : readString opening (escapedChar unit behind).2 with
    | error => simp [hr, Except.map] at h
    | ok p =>
      rw [hr] at h
      cases h
      have h₁ := ih hr
      have h₂ := length_lt_of_escapeUnit? hu
      have h₃ := length_escapedChar_le unit behind
      simp only [List.length_cons]
      omega
  | case6 => cases h
  | case7 c r _ d hd ih =>
    cases hr : readString opening r with
    | error => simp [hr, Except.map] at h
    | ok p =>
      rw [hr] at h
      cases h
      have := ih hr
      simp only [List.length_cons]
      omega
  | case8 => cases h
  | case9 c r _ _ _ _ _ ih =>
    cases hr : readString opening r with
    | error => simp [hr, Except.map] at h
    | ok p =>
      rw [hr] at h
      cases h
      have := ih hr
      simp only [List.length_cons]
      omega

mutual

/-- Reads a value, at which the text begins, and then what encloses it. -/
def readValue (frames : List Frame) (s : List Char) : Except Fault (Datum × List Char) :=
  match s with
  | '\x22' :: rest =>
    match _h : readString s rest with
    | .error fault => .error fault
    | .ok (chars, behind) => closeValue frames (.text (String.ofList chars)) behind
  | '[' :: rest =>
    match _h : skipSpace rest with
    | ']' :: behind => closeValue frames (.list []) behind
    | inside => readValue (.list [] :: frames) inside
  | '\x7b' :: rest =>
    match _h : skipSpace rest with
    | '\x7d' :: behind => closeValue frames (.record []) behind
    | inside => readName frames [] inside
  | s =>
    match _h : scalar? s with
    | some (d, behind) => closeValue frames d behind
    | none => .error ⟨.expectedValue, s⟩
termination_by s.length
decreasing_by
  · have := length_lt_of_readString _h
    simp only [List.length_cons]
    omega
  · have := length_skipSpace_le rest
    simp only [_h, List.length_cons] at this ⊢
    omega
  · have := length_skipSpace_le rest
    rw [_h] at this
    simp only [List.length_cons]
    omega
  · have := length_skipSpace_le rest
    simp only [_h, List.length_cons] at this ⊢
    omega
  · have := length_skipSpace_le rest
    rw [_h] at this
    simp only [List.length_cons]
    omega
  · exact length_lt_of_scalar? _h

/-- Puts a finished value into the innermost unfinished list or record and goes on behind it. -/
def closeValue (frames : List Frame) (d : Datum) (s : List Char) :
    Except Fault (Datum × List Char) :=
  match frames with
  | [] => .ok (d, s)
  | .list items :: frames =>
    match _h : skipSpace s with
    | ',' :: rest => readValue (.list (d :: items) :: frames) (skipSpace rest)
    | ']' :: rest => closeValue frames (.list (d :: items).reverse) rest
    | rest => .error ⟨.expectedComma, rest⟩
  | .record fields name :: frames =>
    match _h : skipSpace s with
    | ',' :: rest => readName frames (fields.put name d) (skipSpace rest)
    | '\x7d' :: rest => closeValue frames (.record (fields.put name d)) rest
    | rest => .error ⟨.expectedComma, rest⟩
termination_by s.length
decreasing_by
  · have h₁ := length_skipSpace_le s
    have h₂ := length_skipSpace_le rest
    simp only [_h, List.length_cons] at h₁
    omega
  · have h₁ := length_skipSpace_le s
    simp only [_h, List.length_cons] at h₁
    omega
  · have h₁ := length_skipSpace_le s
    have h₂ := length_skipSpace_le rest
    simp only [_h, List.length_cons] at h₁
    omega
  · have h₁ := length_skipSpace_le s
    simp only [_h, List.length_cons] at h₁
    omega

/-- Reads the name of a field and then its value. -/
def readName (frames : List Frame) (fields : Fields String Datum) (s : List Char) :
    Except Fault (Datum × List Char) :=
  match s with
  | '\x22' :: rest =>
    match _h : readString s rest with
    | .error fault => .error fault
    | .ok (chars, behind) =>
      match _h' : skipSpace behind with
      | ':' :: rest =>
        readValue (.record fields (String.ofList chars) :: frames) (skipSpace rest)
      | rest => .error ⟨.expectedColon, rest⟩
  | s => .error ⟨.expectedName, s⟩
termination_by s.length
decreasing_by
  have h₁ := length_lt_of_readString _h
  have h₂ := length_skipSpace_le behind
  have h₃ := length_skipSpace_le rest
  simp only [_h', List.length_cons] at h₂
  simp only [List.length_cons]
  omega

end

/-- The datum that a whole text denotes. A byte order mark at its front is an error of its own. -/
def readWhole (text : List Char) : Except Fault Datum :=
  match text with
  | '\ufeff' :: _ => .error ⟨.byteOrderMark, text⟩
  | _ =>
    match readValue [] (skipSpace text) with
    | .error fault => .error fault
    | .ok (d, behind) =>
      if (skipSpace behind).isEmpty then .ok d else .error ⟨.extraData, skipSpace behind⟩

/-- The datum that a JSON text denotes, or the first syntax error. -/
def read (text : String) : Except SyntaxError Datum :=
  (readWhole text.toList).mapError (Fault.locate text.toList)

end WordAutomata.Json
