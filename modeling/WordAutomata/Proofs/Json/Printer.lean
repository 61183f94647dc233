import WordAutomata.Json.Printer
import WordAutomata.Proofs.Json.Literal
import WordAutomata.Proofs.Json.Scalar

/-!
# Characters of written data

A datum without real numbers is written in printable ASCII and in the white space of the layout.
-/
namespace WordAutomata

mutual

/-- Without real numbers and repeated names. -/
def Datum.Plain : Datum → Prop
  | .real _ => False
  | .list items => Datum.PlainItems items
  | .record fields => (Fields.names fields).Nodup ∧ Datum.PlainFields fields
  | _ => True

def Datum.PlainItems : List Datum → Prop
  | [] => True
  | item :: items => item.Plain ∧ Datum.PlainItems items

def Datum.PlainFields : List (String × Datum) → Prop
  | [] => True
  | (_, value) :: fields => value.Plain ∧ Datum.PlainFields fields

end

namespace Json

open WordAutomata.Text

/-- The characters that a layout puts between the parts of a text have a property. -/
structure Layout.All (layout : Layout) (P : Char → Prop) : Prop where
  gap : ∀ depth, ∀ c ∈ layout.gap depth, P c
  colonGap : ∀ c ∈ layout.colonGap, P c

/-- Only white space stands between the parts of a text. -/
def Layout.Blank (layout : Layout) : Prop := layout.All fun c => isSpace c = true

theorem all_compact (P : Char → Prop) : Layout.compact.All P :=
  ⟨by simp [Layout.compact], by simp [Layout.compact]⟩

theorem all_indented {P : Char → Prop} (hline : P '\n') (hspace : P ' ') :
    Layout.indented.All P := by
  constructor
  · intro depth c hc
    rw [Layout.indented, List.mem_cons, List.mem_replicate] at hc
    rcases hc with rfl | ⟨-, rfl⟩
    · exact hline
    · exact hspace
  · intro c hc
    cases List.mem_singleton.1 hc
    exact hspace

theorem blank_compact : Layout.compact.Blank := all_compact _

theorem blank_indented : Layout.indented.Blank := all_indented rfl rfl

theorem printable_null : ∀ c ∈ "null".toList, Printable c := printable_of_all (by decide)

theorem printable_true : ∀ c ∈ "true".toList, Printable c := printable_of_all (by decide)

theorem printable_false : ∀ c ∈ "false".toList, Printable c := printable_of_all (by decide)

theorem printable_emptyList : ∀ c ∈ ['[', ']'], Printable c := printable_of_all (by decide)

theorem printable_emptyRecord : ∀ c ∈ ['\x7b', '\x7d'], Printable c :=
  printable_of_all (by decide)

theorem printable_intDigits (i : Int) : ∀ c ∈ intDigits i, Printable c := by
  have hdigit : ∀ c : Char, c.isDigit = true → Printable c := by
    intro c hc
    rw [Char.isDigit, Bool.and_eq_true, decide_eq_true_eq, decide_eq_true_eq] at hc
    exact ⟨UInt32.le_trans (by decide) hc.1, UInt32.le_trans hc.2 (by decide)⟩
  cases i with
  | ofNat n => exact fun c hc => hdigit c (isDigit_natDigits n c hc)
  | negSucc n =>
    intro c hc
    rcases List.mem_cons.1 hc with rfl | hc
    · exact ⟨by decide, by decide⟩
    · exact hdigit c (isDigit_natDigits (n + 1) c hc)

variable {layout : Layout}

mutual

/-- A property that printable characters and white space have, all characters of a text have. -/
theorem all_printAt {P : Char → Prop} (hl : layout.All P) (hP : ∀ c, Printable c → P c) :
    ∀ (d : Datum) (depth : Nat), d.Plain → ∀ c ∈ printAt layout depth d, P c
  | .null, _, _ => fun c hc => hP c (printable_null c hc)
  | .bool true, _, _ => fun c hc => hP c (printable_true c hc)
  | .bool false, _, _ => fun c hc => hP c (printable_false c hc)
  | .int i, _, _ => fun c hc => hP c (printable_intDigits i c hc)
  | .real _, _, hd => hd.elim
  | .text s, _, _ => fun c hc => hP c (printable_literalChars s.toList c hc)
  | .list [], _, _ => fun c hc => hP c (printable_emptyList c hc)
  | .list (item :: items), depth, hd => by
    obtain ⟨hitem, hitems⟩ : item.Plain ∧ Datum.PlainItems items := hd
    have h₁ := all_printAt hl hP item (depth + 1) hitem
    have h₂ := all_printItems hl hP items (depth + 1) hitems
    simp only [printAt, List.append_assoc, List.cons_append, List.forall_mem_append,
      List.forall_mem_cons]
    exact ⟨hP _ (by decide), hl.gap (depth + 1), h₁, h₂, hl.gap depth, hP _ (by decide), by simp⟩
  | .record [], _, _ => fun c hc => hP c (printable_emptyRecord c hc)
  | .record ((name, value) :: fields), depth, hd => by
    obtain ⟨-, hvalue, hfields⟩ :
      (name :: Fields.names fields).Nodup ∧ value.Plain ∧ Datum.PlainFields fields := hd
    have h₁ := all_printAt hl hP value (depth + 1) hvalue
    have h₂ := all_printFields hl hP fields (depth + 1) hfields
    have hname := fun c hc => hP c (printable_literalChars name.toList c hc)
    simp only [printAt, List.append_assoc, List.cons_append, List.forall_mem_append,
      List.forall_mem_cons]
    exact ⟨hP _ (by decide), hl.gap (depth + 1), hname, hP _ (by decide), hl.colonGap, h₁, h₂,
      hl.gap depth, hP _ (by decide), by simp⟩

theorem all_printItems {P : Char → Prop} (hl : layout.All P) (hP : ∀ c, Printable c → P c) :
    ∀ (items : List Datum) (depth : Nat), Datum.PlainItems items →
      ∀ c ∈ printItems layout depth items, P c
  | [], _, _ => by simp [printItems]
  | item :: items, depth, hd => by
    obtain ⟨hitem, hitems⟩ : item.Plain ∧ Datum.PlainItems items := hd
    have h₁ := all_printAt hl hP item depth hitem
    have h₂ := all_printItems hl hP items depth hitems
    simp only [printItems, List.append_assoc, List.cons_append, List.forall_mem_append,
      List.forall_mem_cons]
    exact ⟨hP _ (by decide), hl.gap depth, h₁, h₂⟩

theorem all_printFields {P : Char → Prop} (hl : layout.All P) (hP : ∀ c, Printable c → P c) :
    ∀ (fields : List (String × Datum)) (depth : Nat), Datum.PlainFields fields →
      ∀ c ∈ printFields layout depth fields, P c
  | [], _, _ => by simp [printFields]
  | (name, value) :: fields, depth, hd => by
    obtain ⟨hvalue, hfields⟩ : value.Plain ∧ Datum.PlainFields fields := hd
    have h₁ := all_printAt hl hP value depth hvalue
    have h₂ := all_printFields hl hP fields depth hfields
    have hname := fun c hc => hP c (printable_literalChars name.toList c hc)
    simp only [printFields, List.append_assoc, List.cons_append, List.forall_mem_append,
      List.forall_mem_cons]
    exact ⟨hP _ (by decide), hl.gap depth, hname, hP _ (by decide), hl.colonGap, h₁, h₂⟩

end

end Json
end WordAutomata
