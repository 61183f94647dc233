import WordAutomata.Proofs.Json.Printer

/-!
# Written data are read back

Whatever white space a layout puts between the parts, reading a written datum gives the datum and
goes on behind it, for every stack of unfinished lists and records. Real numbers are left out, and a
record must not repeat a name, since reading keeps one value for a name.
-/
namespace WordAutomata

namespace Json

open WordAutomata.Text

/-! ## White space -/

theorem skipSpace_append {blank : List Char} (h : ∀ c ∈ blank, isSpace c = true) (s : List Char) :
    skipSpace (blank ++ s) = skipSpace s := List.dropWhile_append_of_pos h

theorem skipSpace_cons {c : Char} (h : isSpace c = false) (s : List Char) :
    skipSpace (c :: s) = c :: s := List.dropWhile_cons_of_neg (by simp [h])

/-- The first bracket or comma behind white space. -/
theorem skipSpace_append_cons {blank : List Char} (hb : ∀ c ∈ blank, isSpace c = true) {c : Char}
    (hc : isSpace c = false) (s : List Char) : skipSpace (blank ++ c :: s) = c :: s := by
  rw [skipSpace_append hb, skipSpace_cons hc]

/-! ## One step of the reader -/

theorem readValue_literal (frames : List Frame) (s rest : List Char) :
    readValue frames (literalChars s ++ rest) =
      closeValue frames (.text (String.ofList s)) rest := by
  rw [literalChars, List.append_assoc, List.cons_append, readValue]
  simp only [List.cons_append, List.nil_append]
  rw [readString_literal]

theorem readValue_scalar {frames : List Frame} {s rest : List Char} {d : Datum}
    (h : scalar? s = some (d, rest))
    (hs : ∀ c, s.head? = some c → c ≠ '\x22' ∧ c ≠ '[' ∧ c ≠ '\x7b') :
    readValue frames s = closeValue frames d rest := by
  rw [readValue]
  · rw [h]
  all_goals
    intro tail he
    subst he
    simp at hs

theorem readValue_emptyList (frames : List Frame) (rest : List Char) :
    readValue frames ('[' :: ']' :: rest) = closeValue frames (.list []) rest := by
  rw [readValue, skipSpace_cons rfl]
  rfl

theorem readValue_emptyRecord (frames : List Frame) (rest : List Char) :
    readValue frames ('\x7b' :: '\x7d' :: rest) = closeValue frames (.record []) rest := by
  rw [readValue, skipSpace_cons rfl]
  rfl

theorem closeValue_nil (d : Datum) (s : List Char) : closeValue [] d s = .ok (d, s) := by
  rw [closeValue]

theorem closeValue_list_comma {frames : List Frame} {items : List Datum} {d : Datum}
    {s rest : List Char} (h : skipSpace s = ',' :: rest) :
    closeValue (.list items :: frames) d s =
      readValue (.list (d :: items) :: frames) (skipSpace rest) := by
  rw [closeValue, h]
  rfl

theorem closeValue_list_bracket {frames : List Frame} {items : List Datum} {d : Datum}
    {s rest : List Char} (h : skipSpace s = ']' :: rest) :
    closeValue (.list items :: frames) d s =
      closeValue frames (.list (d :: items).reverse) rest := by
  rw [closeValue, h]
  rfl

theorem closeValue_record_comma {frames : List Frame} {fields : Fields String Datum} {name : String}
    {d : Datum} {s rest : List Char} (h : skipSpace s = ',' :: rest) :
    closeValue (.record fields name :: frames) d s =
      readName frames (fields.put name d) (skipSpace rest) := by
  rw [closeValue, h]
  rfl

theorem closeValue_record_brace {frames : List Frame} {fields : Fields String Datum} {name : String}
    {d : Datum} {s rest : List Char} (h : skipSpace s = '\x7d' :: rest) :
    closeValue (.record fields name :: frames) d s =
      closeValue frames (.record (fields.put name d)) rest := by
  rw [closeValue, h]
  rfl

theorem readName_literal (frames : List Frame) (fields : Fields String Datum) (s rest : List Char) :
    readName frames fields (literalChars s ++ ':' :: rest) =
      readValue (.record fields (String.ofList s) :: frames) (skipSpace rest) := by
  rw [literalChars, List.append_assoc, List.cons_append, readName]
  simp only [List.cons_append, List.nil_append]
  rw [readString_literal]
  rfl

/-! ## What stands at the edges of written data -/

theorem ends_blank {blank rest : List Char} (hb : ∀ c ∈ blank, isSpace c = true)
    (hr : Ends rest) : Ends (blank ++ rest) := by
  cases blank with
  | nil => exact hr
  | cons c blank =>
    have hc := hb c List.mem_cons_self
    simp only [isSpace, Bool.or_eq_true, decide_eq_true_eq] at hc
    refine ends_cons ?_
    rcases hc with ((rfl | rfl) | rfl) | rfl <;> decide

theorem ends_printItems (layout : Layout) (depth : Nat) (items : List Datum) {rest : List Char}
    (hr : Ends rest) : Ends (printItems layout depth items ++ rest) := by
  cases items with
  | nil => exact hr
  | cons item items => exact ends_cons (by decide)

theorem ends_printFields (layout : Layout) (depth : Nat) (fields : List (String × Datum))
    {rest : List Char} (hr : Ends rest) : Ends (printFields layout depth fields ++ rest) := by
  cases fields with
  | nil => exact hr
  | cons field fields => exact ends_cons (by decide)

/-- A written datum begins with a character that is neither white space nor a closing bracket. -/
theorem printAt_eq_cons (layout : Layout) (depth : Nat) {d : Datum} (hd : d.Plain) :
    ∃ c s, printAt layout depth d = c :: s ∧ isSpace c = false ∧ c ≠ ']' ∧ c ≠ '\ufeff' := by
  cases d with
  | null => exact ⟨_, _, rfl, by decide, by decide, by decide⟩
  | bool b => cases b <;> exact ⟨_, _, rfl, by decide, by decide, by decide⟩
  | int i =>
    obtain ⟨c, digits, hs, hc⟩ := intDigits_eq_cons i
    refine ⟨c, digits, hs, ?_, ?_, ?_⟩
    · by_cases hspace : isSpace c = true
      · simp only [isSpace, Bool.or_eq_true, decide_eq_true_eq] at hspace
        rcases hspace with ((rfl | rfl) | rfl) | rfl <;> revert hc <;> decide
      · exact Bool.eq_false_iff.2 hspace
    · rintro rfl
      revert hc
      decide
    · rintro rfl
      revert hc
      decide
  | real x => exact hd.elim
  | text s => exact ⟨_, _, rfl, by decide, by decide, by decide⟩
  | list items => cases items <;> exact ⟨_, _, rfl, by decide, by decide, by decide⟩
  | record fields => cases fields <;> exact ⟨_, _, rfl, by decide, by decide, by decide⟩

theorem skipSpace_printAt (layout : Layout) (depth : Nat) {d : Datum} (hd : d.Plain)
    (rest : List Char) :
    skipSpace (printAt layout depth d ++ rest) = printAt layout depth d ++ rest := by
  obtain ⟨c, s, hs, hc, -, -⟩ := printAt_eq_cons layout depth hd
  rw [hs, List.cons_append, skipSpace_cons hc]

/-- White space before a written datum is skipped. -/
theorem skipSpace_append_printAt {blank : List Char} (hb : ∀ c ∈ blank, isSpace c = true)
    (layout : Layout) (depth : Nat) {d : Datum} (hd : d.Plain) (rest : List Char) :
    skipSpace (blank ++ (printAt layout depth d ++ rest)) = printAt layout depth d ++ rest := by
  rw [skipSpace_append hb, skipSpace_printAt layout depth hd]

/-- White space before a written name is skipped. -/
theorem skipSpace_append_literal {blank : List Char} (hb : ∀ c ∈ blank, isSpace c = true)
    (s rest : List Char) :
    skipSpace (blank ++ (literalChars s ++ rest)) = literalChars s ++ rest :=
  skipSpace_append_cons hb rfl _

/-- A list that is not empty is opened, and its first item is read. -/
theorem readValue_list {blank : List Char} (hb : ∀ c ∈ blank, isSpace c = true) (layout : Layout)
    (depth : Nat) {d : Datum} (hd : d.Plain) (frames : List Frame) (rest : List Char) :
    readValue frames ('[' :: (blank ++ (printAt layout depth d ++ rest))) =
      readValue (.list [] :: frames) (printAt layout depth d ++ rest) := by
  rw [readValue, skipSpace_append_printAt hb layout depth hd]
  obtain ⟨c, s, hs, -, hbracket, -⟩ := printAt_eq_cons layout depth hd
  rw [hs, List.cons_append]
  split
  · rename_i he
    cases he
    exact absurd rfl hbracket
  · rfl

/-- A record that is not empty is opened, and its first name is read. -/
theorem readValue_record {blank : List Char} (hb : ∀ c ∈ blank, isSpace c = true)
    (frames : List Frame) (s rest : List Char) :
    readValue frames ('\x7b' :: (blank ++ (literalChars s ++ rest))) =
      readName frames [] (literalChars s ++ rest) := by
  rw [readValue, skipSpace_append_literal hb]
  rfl

/-! ## Reading written data -/

section RoundTrip

variable {layout : Layout}

mutual

/-- Reading a written datum finishes that datum and goes on behind it. -/
theorem readValue_printAt (hl : layout.Blank) :
    ∀ (d : Datum) (depth : Nat) (frames : List Frame) (rest : List Char), d.Plain → Ends rest →
      readValue frames (printAt layout depth d ++ rest) = closeValue frames d rest
  | .null, depth, frames, rest, _, _ => by
    rw [printAt]
    exact readValue_scalar (scalar?_null rest) (by simp)
  | .bool true, depth, frames, rest, _, _ => by
    rw [printAt]
    exact readValue_scalar (scalar?_true rest) (by simp)
  | .bool false, depth, frames, rest, _, _ => by
    rw [printAt]
    exact readValue_scalar (scalar?_false rest) (by simp)
  | .int i, depth, frames, rest, _, hr => by
    rw [printAt]
    obtain ⟨c, digits, hs, hc⟩ := intDigits_eq_cons i
    refine readValue_scalar (scalar?_intDigits i hr) ?_
    rw [hs]
    rintro _ ⟨⟩
    refine ⟨?_, ?_, ?_⟩ <;> rintro rfl <;> revert hc <;> decide
  | .real _, _, _, _, hd, _ => hd.elim
  | .text s, depth, frames, rest, _, _ => by
    rw [printAt, readValue_literal, String.ofList_toList]
  | .list [], depth, frames, rest, _, _ => by
    rw [printAt]
    exact readValue_emptyList frames rest
  | .list (item :: items), depth, frames, rest, hd, _ => by
    obtain ⟨hitem, hitems⟩ : item.Plain ∧ Datum.PlainItems items := hd
    have hends : Ends (layout.gap depth ++ ']' :: rest) :=
      ends_blank (hl.gap depth) (ends_cons (by decide))
    simp only [printAt, List.append_assoc, List.cons_append, List.nil_append]
    rw [readValue_list (hl.gap (depth + 1)) layout (depth + 1) hitem,
      readValue_printAt hl item (depth + 1) (.list [] :: frames) _ hitem
        (ends_printItems layout (depth + 1) items hends),
      closeValue_printItems hl items (depth + 1) frames [] item _ rest hitems (hl.gap depth)]
    rfl
  | .record [], depth, frames, rest, _, _ => by
    rw [printAt]
    exact readValue_emptyRecord frames rest
  | .record ((name, value) :: fields), depth, frames, rest, hd, _ => by
    obtain ⟨hnames, hvalue, hfields⟩ :
      (name :: Fields.names fields).Nodup ∧ value.Plain ∧ Datum.PlainFields fields := hd
    have hends : Ends (layout.gap depth ++ '\x7d' :: rest) :=
      ends_blank (hl.gap depth) (ends_cons (by decide))
    simp only [printAt, List.append_assoc, List.cons_append, List.nil_append]
    rw [readValue_record (hl.gap (depth + 1)), readName_literal, String.ofList_toList,
      skipSpace_append_printAt hl.colonGap layout (depth + 1) hvalue,
      readValue_printAt hl value (depth + 1) _ _ hvalue
        (ends_printFields layout (depth + 1) fields hends),
      closeValue_printFields hl fields (depth + 1) frames [] name value _ rest hfields hnames
        (hl.gap depth)]
    rfl

/-- The items behind the first are put to the items before them. -/
theorem closeValue_printItems (hl : layout.Blank) :
    ∀ (items : List Datum) (depth : Nat) (frames : List Frame) (before : List Datum) (d : Datum)
      (closing rest : List Char), Datum.PlainItems items → (∀ c ∈ closing, isSpace c = true) →
      closeValue (.list before :: frames) d
          (printItems layout depth items ++ (closing ++ ']' :: rest)) =
        closeValue frames (.list (before.reverse ++ d :: items)) rest
  | [], depth, frames, before, d, closing, rest, _, hclosing => by
    rw [printItems, List.nil_append,
      closeValue_list_bracket (skipSpace_append_cons hclosing rfl rest), List.reverse_cons]
  | item :: items, depth, frames, before, d, closing, rest, hd, hclosing => by
    obtain ⟨hitem, hitems⟩ : item.Plain ∧ Datum.PlainItems items := hd
    have hends : Ends (closing ++ ']' :: rest) := ends_blank hclosing (ends_cons (by decide))
    simp only [printItems, List.append_assoc, List.cons_append]
    rw [closeValue_list_comma (skipSpace_cons rfl _),
      skipSpace_append_printAt (hl.gap depth) layout depth hitem,
      readValue_printAt hl item depth (.list (d :: before) :: frames) _ hitem
        (ends_printItems layout depth items hends),
      closeValue_printItems hl items depth frames (d :: before) item closing rest hitems hclosing]
    rw [List.reverse_cons, List.append_assoc]
    rfl

/-- The fields behind the first are put to the fields before them. -/
theorem closeValue_printFields (hl : layout.Blank) :
    ∀ (fields : List (String × Datum)) (depth : Nat) (frames : List Frame)
      (before : Fields String Datum) (name : String) (d : Datum) (closing rest : List Char),
      Datum.PlainFields fields → (before.names ++ name :: Fields.names fields).Nodup →
      (∀ c ∈ closing, isSpace c = true) →
      closeValue (.record before name :: frames) d
          (printFields layout depth fields ++ (closing ++ '\x7d' :: rest)) =
        closeValue frames (.record (before ++ (name, d) :: fields)) rest
  | [], depth, frames, before, name, d, closing, rest, _, hn, hclosing => by
    have hfresh := Fields.not_mem_names_of_nodup hn
    rw [printFields, List.nil_append,
      closeValue_record_brace (skipSpace_append_cons hclosing rfl rest),
      Fields.put_of_not_mem hfresh]
  | (next, value) :: fields, depth, frames, before, name, d, closing, rest, hd, hn, hclosing => by
    obtain ⟨hvalue, hfields⟩ : value.Plain ∧ Datum.PlainFields fields := hd
    have hends : Ends (closing ++ '\x7d' :: rest) := ends_blank hclosing (ends_cons (by decide))
    have hfresh := Fields.not_mem_names_of_nodup hn
    have hn' : (Fields.names (before ++ [(name, d)]) ++ next :: Fields.names fields).Nodup := by
      simpa [Fields.names] using hn
    simp only [printFields, List.append_assoc, List.cons_append]
    rw [closeValue_record_comma (skipSpace_cons rfl _), Fields.put_of_not_mem hfresh,
      skipSpace_append_literal (hl.gap depth), readName_literal, String.ofList_toList,
      skipSpace_append_printAt hl.colonGap layout depth hvalue,
      readValue_printAt hl value depth _ _ hvalue (ends_printFields layout depth fields hends),
      closeValue_printFields hl fields depth frames _ next value closing rest hfields hn' hclosing]
    rw [List.append_assoc]
    rfl

end

/-- The text of a written datum, with white space behind it, is read as that datum. -/
theorem read_printAt (hl : layout.Blank) {d : Datum} (hd : d.Plain) (depth : Nat)
    {blank : List Char} (hb : ∀ c ∈ blank, isSpace c = true) :
    read (String.ofList (printAt layout depth d ++ blank)) = .ok d := by
  have hvalue : readValue [] (skipSpace (printAt layout depth d ++ blank)) = .ok (d, blank) := by
    have hends : Ends blank := by
      rw [← List.append_nil blank]
      exact ends_blank hb ends_nil
    rw [skipSpace_printAt layout depth hd, readValue_printAt hl d depth [] blank hd hends,
      closeValue_nil]
  have hrest : skipSpace blank = [] := by
    have h := skipSpace_append hb []
    rwa [List.append_nil] at h
  rw [read, String.toList_ofList, readWhole]
  · rw [hvalue]
    simp only [hrest]
    rfl
  · obtain ⟨c, s, hs, -, -, hmark⟩ := printAt_eq_cons layout depth hd
    rw [hs, List.cons_append]
    rintro _ ⟨⟩
    exact hmark rfl

end RoundTrip

end Json
end WordAutomata
