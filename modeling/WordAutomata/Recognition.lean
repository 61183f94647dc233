import WordAutomata.Dfa.Numbered
import WordAutomata.Dfa.Run
import WordAutomata.Produced

/-!
# Recognition of lines

Every line encodes a word. Recognition reports for each line, in order, whether its word is
accepted. Line by line it also reports how the run ended; in batches it labels many words at once
and reports acceptance alone. When a line cannot be decoded, the reports before it have been
produced already: those of all earlier lines, or of all earlier batches.
-/
namespace WordAutomata

/-- How the run of a word ended, in the terms of a report. -/
inductive Outcome where
  | accepted
  | rejected
  | invalidWord
deriving DecidableEq, Repr

def Outcome.name : Outcome → String
  | .accepted => "accepted"
  | .rejected => "rejected"
  | .invalidWord => "invalid-word"

/-- What is reported of a run besides acceptance. -/
structure Detail where
  outcome : Outcome
  reason : Option RejectionReason
  position : Nat
deriving DecidableEq, Repr

structure Report where
  line : String
  accepted : Bool
  detail : Option Detail
deriving DecidableEq, Repr

/-- A batch must hold at least one line. -/
structure BatchSizeError where
  size : Int
deriving DecidableEq

def BatchSizeError.message (e : BatchSizeError) : String :=
  "batch size must be positive, got " ++ Text.decimal e.size

namespace Report

def toDatum (r : Report) : Datum :=
  let detail := match r.detail with
    | none => []
    | some d => [
      ("outcome", .text d.outcome.name),
      ("reason", match d.reason with
        | none => .null
        | some reason => .text reason.name),
      ("position", .int d.position)]
  .record (("word", .text r.line) :: ("accepted", .bool r.accepted) :: detail)

def ofConfiguration (line : String) (w : Word) : Configuration → Report
  | .rejected reason _ position _ =>
    let outcome := if reason = .invalidSymbol then .invalidWord else .rejected
    ⟨line, false, some ⟨outcome, some reason, position⟩⟩
  | _ => ⟨line, true, some ⟨.accepted, none, w.length⟩⟩

end Report

namespace Dfa

/-- The report of one line whose word is known. -/
def reportOn (M : Dfa) (line : String) (w : Word) : Report := .ofConfiguration line w (M.run w)

/-- The reports of lines that are decoded and run one by one. -/
def recognizeEach (M : Dfa) (delimiter : String) : List String → Produced DecodeError Report
  | [] => .done
  | line :: rest =>
    match Word.decode delimiter line with
    | .error e => .fail e
    | .ok w => (M.recognizeEach delimiter rest).before [M.reportOn line w]

end Dfa

/-- A list cut into pieces of a size that is not zero; the last one may be shorter. -/
def batches {α : Type} (size : Nat) (hsize : 0 < size) (items : List α) : List (List α) :=
  if _h : items = [] then [] else items.take size :: batches size hsize (items.drop size)
termination_by items.length
decreasing_by
  have := List.length_pos_iff.2 _h
  rw [List.length_drop]
  omega

/-- The pieces of a list, one behind the other, are the list. -/
theorem flatten_batches {α : Type} (size : Nat) (hsize : 0 < size) (items : List α) :
    (batches size hsize items).flatten = items := by
  fun_induction batches size hsize items with
  | case1 => rfl
  | case2 items h ih => rw [List.flatten_cons, ih, List.take_append_drop]

namespace NumberedDfa

def labelBatch (T : NumberedDfa) (lines : List String) (words : List Word) : List Report :=
  (lines.zip (T.accepts words)).map fun (line, accepted) => ⟨line, accepted, none⟩

/-- The reports of batches of lines. A batch is decoded as a whole before it is labelled. -/
def recognizeBatches (T : NumberedDfa) (delimiter : String) :
    List (List String) → Produced DecodeError Report
  | [] => .done
  | lines :: rest =>
    match lines.mapM (Word.decode delimiter) with
    | .error e => .fail e
    | .ok words => (T.recognizeBatches delimiter rest).before (T.labelBatch lines words)

end NumberedDfa

/-- How lines are recognized: one by one, or in batches of a size. -/
inductive Batching where
  | each
  | batched (size : Int)
deriving DecidableEq, Repr

/-- The reports of lines. The batch size is checked before any line is looked at. -/
def Dfa.recognize (M : Dfa) (delimiter : String) (batching : Batching) (lines : List String) :
    Except BatchSizeError (Produced DecodeError Report) :=
  match batching with
  | .each => .ok (M.recognizeEach delimiter lines)
  | .batched size =>
    if h : 0 < size.toNat then
      .ok ((NumberedDfa.ofDfa M).recognizeBatches delimiter (batches size.toNat h lines))
    else .error ⟨size⟩

end WordAutomata
