import WordAutomata.Json.Lines
import WordAutomata.Proofs.Json.Trailing
import WordAutomata.Proofs.Text.Lines

/-!
# Data on lines are read back

A written datum is one line that is not blank, so writing data line by line and reading the lines
gives the data. Blank lines between them are counted and add nothing. A line that is no JSON text
ends the reading, with the data of the lines before it.
-/
namespace WordAutomata.Json

open WordAutomata.Text

/-- A line between other lines: a written datum, or blank characters. -/
inductive Line where
  | written (d : Datum)
  | blank (chars : List Char)

namespace Line

def text : Line → String
  | written d => writeLine d
  | blank chars => String.ofList (chars ++ ['\n'])

def datum? : Line → Option Datum
  | written d => some d
  | blank _ => none

/-- A line that can be read back, and is a single one. -/
def Fit : Line → Prop
  | written d => d.Plain
  | blank chars => '\n' ∉ chars ∧ ∀ c ∈ chars, isBlank c = true

end Line

/-! ## Characters of a written line -/

theorem toList_writeLine (d : Datum) : (writeLine d).toList = printAt .compact 0 d ++ ['\n'] := by
  rw [writeLine, print, String.toList_append, String.toList_ofList]
  rfl

theorem printable_printAt {d : Datum} (hd : d.Plain) : ∀ c ∈ printAt .compact 0 d, Printable c :=
  all_printAt (all_compact Printable) (fun _ h => h) d 0 hd

theorem lineFeed_not_printable : ¬ Printable '\n' := by decide

theorem isSpace_lineFeed : ∀ c ∈ ['\n'], isSpace c = true := List.forall_mem_singleton.2 rfl

theorem lineFeed_not_mem_printAt {d : Datum} (hd : d.Plain) : '\n' ∉ printAt .compact 0 d :=
  fun h => lineFeed_not_printable (printable_printAt hd _ h)

theorem isBlank_eq_false {c : Char} (hc : Printable c) (hspace : c ≠ ' ') : isBlank c = false := by
  have hlow : 0x20 ≤ c.toNat := hc.1
  have hhigh : c.toNat ≤ 0x7e := hc.2
  have hne : c.toNat ≠ 0x20 := fun he => hspace (Char.toNat_inj.1 he)
  simp only [isBlank, inRanges, blankRanges, Bool.and_eq_false_iff, Bool.or_eq_false_iff,
    decide_eq_false_iff_not]
  omega

/-- A written datum does not look like a blank line. -/
theorem all_isBlank_printAt {d : Datum} (hd : d.Plain) (rest : List Char) :
    (printAt .compact 0 d ++ rest).all isBlank = false := by
  obtain ⟨c, s, hs, hspace, -, -⟩ := printAt_eq_cons .compact 0 hd
  have hc : Printable c := printable_printAt hd c (hs ▸ List.mem_cons_self)
  have hne : c ≠ ' ' := by
    rintro rfl
    cases hspace
  rw [hs, List.cons_append, List.all_cons, isBlank_eq_false hc hne, Bool.false_and]

/-! ## Lines one after the other -/

theorem readLinesFrom_written {d : Datum} (hd : d.Plain) (number : Nat) (rest : List (List Char)) :
    readLinesFrom number ((printAt .compact 0 d ++ ['\n']) :: rest) =
      (readLinesFrom (number + 1) rest).before [d] := by
  have hread : read (String.ofList (printAt .compact 0 d ++ ['\n'])) = .ok d :=
    read_printAt blank_compact hd 0 isSpace_lineFeed
  rw [readLinesFrom, all_isBlank_printAt hd, hread]
  rfl

theorem readLinesFrom_blank {line : List Char} (h : ∀ c ∈ line, isBlank c = true) (number : Nat)
    (rest : List (List Char)) :
    readLinesFrom number (line :: rest) = readLinesFrom (number + 1) rest := by
  rw [readLinesFrom, if_pos (List.all_eq_true.2 h)]

theorem readLinesFrom_bad {line : List Char} (hline : ∃ c ∈ line, isBlank c = false)
    {e : SyntaxError} (h : read (String.ofList line) = .error e) (number : Nat)
    (rest : List (List Char)) : readLinesFrom number (line :: rest) = .fail ⟨number, e⟩ := by
  have hall : line.all isBlank = false := by
    rw [List.all_eq_false]
    obtain ⟨c, hc, hblank⟩ := hline
    exact ⟨c, hc, by simp [hblank]⟩
  rw [readLinesFrom, hall, h]
  rfl

theorem Line.Fit.exists_chars {line : Line} (h : line.Fit) : ∃ chars, '\n' ∉ chars ∧
    line.text.toList = chars ++ ['\n'] ∧ ∀ number rest,
      readLinesFrom number ((chars ++ ['\n']) :: rest) =
        (readLinesFrom (number + 1) rest).before line.datum?.toList := by
  cases line with
  | written d =>
    exact ⟨_, lineFeed_not_mem_printAt h, toList_writeLine d, readLinesFrom_written h⟩
  | blank chars =>
    have hall : ∀ c ∈ chars ++ ['\n'], isBlank c = true := by
      rw [List.forall_mem_append, List.forall_mem_singleton]
      exact ⟨h.2, by decide⟩
    exact ⟨chars, h.1, String.toList_ofList, readLinesFrom_blank hall⟩

/-- Reading goes through lines that can be read, counting them, and on behind them. -/
theorem readLinesFrom_lines {lines : List Line} (h : ∀ line ∈ lines, line.Fit) (number : Nat)
    (rest : List Char) :
    readLinesFrom number (rawLines ((String.join (lines.map Line.text)).toList ++ rest)) =
      (readLinesFrom (number + lines.length) (rawLines rest)).before
        (lines.filterMap Line.datum?) := by
  induction lines generalizing number with
  | nil => rfl
  | cons line lines ih =>
    rw [List.forall_mem_cons] at h
    obtain ⟨chars, hline, htext, hread⟩ := h.1.exists_chars
    have hsplit : (String.join ((line :: lines).map Line.text)).toList ++ rest =
        chars ++ '\n' :: ((String.join (lines.map Line.text)).toList ++ rest) := by
      simp [String.toList_join, htext]
    rw [hsplit, rawLines_ended hline, hread, ih h.2, List.length_cons, Nat.add_right_comm,
      Nat.add_assoc]
    cases hd : line.datum? <;> simp [hd, Produced.before]

/-- The data of lines that can be read, where more blank characters may stand at the end. -/
theorem readLines_lines {lines : List Line} (h : ∀ line ∈ lines, line.Fit) {last : List Char}
    (hline : '\n' ∉ last) (hlast : ∀ c ∈ last, isBlank c = true) :
    readLines (String.join (lines.map Line.text) ++ String.ofList last) =
      ⟨lines.filterMap Line.datum?, none⟩ := by
  have hdone : ∀ number, readLinesFrom number (rawLines last) = .done := by
    intro number
    by_cases hnil : last = []
    · rw [hnil]
      rfl
    · rw [rawLines_unended hline hnil, readLinesFrom_blank hlast]
      rfl
  rw [readLines, String.toList_append, String.toList_ofList, readLinesFrom_lines h, hdone]
  simp [Produced.before, Produced.done]

/-- A line that is no JSON text ends the reading, whatever stands behind it. -/
theorem readLines_bad {before : List Line} (h : ∀ line ∈ before, line.Fit) {bad : List Char}
    (hline : '\n' ∉ bad) (hbad : ∃ c ∈ bad, isBlank c = false)
    (hread : ∀ d, read (String.ofList bad) ≠ .ok d) {behind : List Char}
    (hbehind : ∀ c, behind.head? = some c → c = '\n') :
    ∃ e, readLines (String.join (before.map Line.text) ++ String.ofList (bad ++ behind)) =
      ⟨before.filterMap Line.datum?, some ⟨before.length + 1, e⟩⟩ := by
  have hne : bad ≠ [] := by
    obtain ⟨c, hc, -⟩ := hbad
    exact List.ne_nil_of_mem hc
  have hfail : ∃ e, readLinesFrom (1 + before.length) (rawLines (bad ++ behind)) =
      .fail ⟨1 + before.length, e⟩ := by
    cases behind with
    | nil =>
      cases hr : read (String.ofList bad) with
      | ok d => exact absurd hr (hread d)
      | error e =>
        rw [List.append_nil, rawLines_unended hline hne]
        exact ⟨e, readLinesFrom_bad hbad hr _ _⟩
    | cons c rest =>
      cases hbehind c rfl
      cases hr : read (String.ofList (bad ++ ['\n'])) with
      | ok d => exact absurd (read_append_blank isSpace_lineFeed hr) (hread d)
      | error e =>
        obtain ⟨c, hc, hvisible⟩ := hbad
        rw [rawLines_ended hline]
        exact ⟨e, readLinesFrom_bad ⟨c, List.mem_append_left _ hc, hvisible⟩ hr _ _⟩
  obtain ⟨e, he⟩ := hfail
  refine ⟨e, ?_⟩
  rw [readLines, String.toList_append, String.toList_ofList, readLinesFrom_lines h, he,
    Nat.add_comm 1]
  simp [Produced.before, Produced.fail]

/-! ## Data written line by line -/

theorem fit_written {ds : List Datum} (hds : ∀ d ∈ ds, d.Plain) :
    ∀ line ∈ ds.map Line.written, line.Fit := by
  simpa [Line.Fit] using hds

/-- The data of a text that was written line by line. -/
theorem readLines_writeLine {ds : List Datum} (hds : ∀ d ∈ ds, d.Plain) :
    readLines (String.join (ds.map writeLine)) = ⟨ds, none⟩ := by
  have h : readLines (String.join ((ds.map Line.written).map Line.text) ++ String.ofList []) = _ :=
    readLines_lines (fit_written hds) (by simp) (by simp)
  have htext : (ds.map Line.written).map Line.text = ds.map writeLine := by
    rw [List.map_map]
    rfl
  have hdata : (ds.map Line.written).filterMap Line.datum? = ds := by
    rw [List.filterMap_map]
    exact List.filterMap_some
  rw [htext, hdata] at h
  simpa using h

theorem count_lineFeed_writeLine {d : Datum} (hd : d.Plain) :
    (writeLine d).toList.count '\n' = 1 := by
  rw [toList_writeLine, List.count_append,
    List.count_eq_zero_of_not_mem (lineFeed_not_mem_printAt hd)]
  rfl

theorem count_lineFeed_writeLines {ds : List Datum} (hds : ∀ d ∈ ds, d.Plain) :
    (String.join (ds.map writeLine)).toList.count '\n' = ds.length := by
  rw [String.toList_join]
  induction ds with
  | nil => rfl
  | cons d ds ih =>
    rw [List.forall_mem_cons] at hds
    rw [List.map_cons, List.flatMap_cons, List.count_append, count_lineFeed_writeLine hds.1,
      ih hds.2, List.length_cons, Nat.add_comm]

theorem printable_writeLines {ds : List Datum} (hds : ∀ d ∈ ds, d.Plain) :
    ∀ c ∈ (String.join (ds.map writeLine)).toList, c = '\n' ∨ Printable c := by
  intro c hc
  rw [String.toList_join, List.flatMap_map, List.mem_flatMap] at hc
  obtain ⟨d, hd, hc⟩ := hc
  rw [toList_writeLine, List.mem_append, List.mem_singleton] at hc
  exact hc.elim (fun h => .inr (printable_printAt (hds d hd) c h)) .inl

/-- Data without real numbers and repeated names are written in printable ASCII on a line each, and
read back from there. Blank lines among the lines make no difference, and neither do blank
characters behind the last one. A line that is neither blank nor a JSON text ends the reading, with
the data of the lines before it and with its number, for which blank lines are counted. -/
theorem written_lines_read_back (ds : List Datum) (hds : ∀ d ∈ ds, d.Plain) :
    (∀ c ∈ (String.join (ds.map writeLine)).toList, c = '\n' ∨ Printable c) ∧
    (String.join (ds.map writeLine)).toList.count '\n' = ds.length ∧
    readLines (String.join (ds.map writeLine)) = ⟨ds, none⟩ ∧
    (∀ (lines : List Line) (last : List Char), (∀ line ∈ lines, line.Fit) →
      lines.filterMap Line.datum? = ds → '\n' ∉ last → (∀ c ∈ last, isBlank c = true) →
      readLines (String.join (lines.map Line.text) ++ String.ofList last) = ⟨ds, none⟩) ∧
    ∀ (before : List Line) (bad behind : List Char), (∀ line ∈ before, line.Fit) →
      '\n' ∉ bad → (∃ c ∈ bad, isBlank c = false) → (∀ d, read (String.ofList bad) ≠ .ok d) →
      (∀ c, behind.head? = some c → c = '\n') →
      ∃ e reason,
        readLines (String.join (before.map Line.text) ++ String.ofList (bad ++ behind)) =
          ⟨before.filterMap Line.datum?, some e⟩ ∧
        e.message = "line " ++ decimal (before.length + 1) ++ ": invalid JSON: " ++ reason := by
  refine ⟨printable_writeLines hds, count_lineFeed_writeLines hds, readLines_writeLine hds, ?_, ?_⟩
  · intro lines last hfit hdata hline hlast
    rw [← hdata]
    exact readLines_lines hfit hline hlast
  · intro before bad behind hfit hline hbad hread hbehind
    obtain ⟨e, he⟩ := readLines_bad hfit hline hbad hread hbehind
    exact ⟨_, e.message, he, rfl⟩

/-- Two records on lines with a blank line between them, and with a line that is no JSON text in the
place of the second. -/
theorem two_records_read_back :
    ∃ first second : Datum, (∀ d ∈ [first, second], d.Plain) ∧
      readLines (writeLine first ++ "\t\n" ++ writeLine second) = ⟨[first, second], none⟩ ∧
      ∃ e reason, readLines (writeLine first ++ "\t\n" ++ "word\n[]") = ⟨[first], some e⟩ ∧
        e.message = "line " ++ decimal 3 ++ ": invalid JSON: " ++ reason := by
  let first : Datum := .record [("word", .text "a\nb"), ("accepted", .bool true)]
  let second : Datum := .record [("word", .text ""), ("accepted", .null)]
  have hds : ∀ d ∈ [first, second], d.Plain := by
    simp [first, second, Datum.Plain, Datum.PlainFields, Fields.names]
  have hfirst : first.Plain := hds first List.mem_cons_self
  have hsecond : second.Plain := hds second (List.mem_cons_of_mem _ List.mem_cons_self)
  have hblank : (Line.blank ['\t']).Fit := ⟨by decide, List.forall_mem_singleton.2 rfl⟩
  have hlines : ∀ line ∈ [Line.written first, .blank ['\t'], .written second], line.Fit := by
    rw [List.forall_mem_cons, List.forall_mem_cons, List.forall_mem_singleton]
    exact ⟨hfirst, hblank, hsecond⟩
  have hbefore : ∀ line ∈ [Line.written first, .blank ['\t']], line.Fit := by
    rw [List.forall_mem_cons, List.forall_mem_singleton]
    exact ⟨hfirst, hblank⟩
  have hword : ∀ d, read (String.ofList "word".toList) ≠ .ok d := by
    intro d h
    rw [read, mapError_eq_ok_iff, String.toList_ofList, readWhole_eq_ok_iff] at h
    obtain ⟨-, rest, h, -⟩ := h
    have hskip : skipSpace "word".toList = "word".toList := rfl
    rw [hskip, readValue_other [] (by simp)] at h
    cases h
  obtain ⟨-, -, -, hread, hfail⟩ := written_lines_read_back _ hds
  have htwo := hread _ [] hlines rfl (by simp) (by simp)
  obtain ⟨e, reason, hone, hmessage⟩ := hfail _ "word".toList "\n[]".toList hbefore (by decide)
    ⟨'w', by decide, by decide⟩ hword (by simp)
  have hdata : [Line.written first, .blank ['\t']].filterMap Line.datum? = [first] := rfl
  rw [hdata] at hone
  refine ⟨first, second, hds, ?_, e, reason, ?_, hmessage⟩
  · simpa [Line.text, String.append_assoc] using htwo
  · simpa [Line.text, String.append_assoc] using hone

end WordAutomata.Json
