import WordAutomata.Language.Named
import WordAutomata.Proofs.Dfa.Numbered
import WordAutomata.Proofs.Except
import WordAutomata.Recognition

/-!
# Batches report what single lines report

Lines can be collected one by one: a full batch is labelled and emptied, and what is left at the end
is labelled last. That gives the reports of the batches that a list of lines is cut into, and those
say of each line what its own report says about acceptance. Neither the size of the batches nor
their boundaries can be seen in the reports.
-/
namespace WordAutomata

/-- What can go wrong while lines are collected. -/
inductive CollectionFault where
  | decode (error : DecodeError)
  /-- A look-up in the numbered table missed. -/
  | lookup
  /-- There are not as many labels as lines. -/
  | unpaired
deriving DecidableEq

namespace Produced

variable {ε δ α : Type}

def mapFailure (f : ε → δ) (p : Produced ε α) : Produced δ α := ⟨p.items, p.failure.map f⟩

/-- Items that may fail to come, and then nothing comes behind them. -/
def afterward (items : Except ε (List α)) (rest : Produced ε α) : Produced ε α :=
  match items with
  | .error e => .fail e
  | .ok items => rest.before items

end Produced

/-- A record with some of its fields; any other datum as it is. -/
def Datum.only (names : List String) : Datum → Datum
  | .record fields => .record (fields.filter fun field => names.contains field.1)
  | d => d

/-- A report of acceptance alone. -/
def Report.summary (r : Report) : Report := { r with detail := none }

theorem Report.toDatum_summary (r : Report) :
    r.summary.toDatum = r.toDatum.only ["word", "accepted"] := by
  obtain ⟨line, accepted, detail⟩ := r
  cases detail <;> rfl

namespace NumberedDfa

/-- The reports of a batch, if all its words can be decoded, no look-up misses and there is a label
for every line. -/
def tryReports (T : NumberedDfa) (delimiter : String) (lines : List String) :
    Except CollectionFault (List Report) :=
  match lines.mapM (Word.decode delimiter) with
  | .error e => .error (.decode e)
  | .ok words =>
    match T.tryAccepts words with
    | none => .error .lookup
    | some labels =>
      if labels.length = lines.length then
        .ok ((lines.zip labels).map fun (line, accepted) => ⟨line, accepted, none⟩)
      else .error .unpaired

/-- The reports of lines that are collected behind those of a batch that is not full. -/
def collect (T : NumberedDfa) (delimiter : String) (size : Nat) (batch : List String) :
    List String → Produced CollectionFault Report
  | [] => if batch = [] then .done else .afterward (T.tryReports delimiter batch) .done
  | line :: rest =>
    if (batch ++ [line]).length = size then
      .afterward (T.tryReports delimiter (batch ++ [line])) (T.collect delimiter size [] rest)
    else T.collect delimiter size (batch ++ [line]) rest

end NumberedDfa

/-! ## Cutting into batches -/

section Batches

variable {α : Type} {size : Nat} {items rest : List α}

theorem batches_nil (hsize : 0 < size) : batches size hsize ([] : List α) = [] := by
  rw [batches, dif_pos rfl]

theorem batches_of_length_le (hsize : 0 < size) (hne : items ≠ []) (hle : items.length ≤ size) :
    batches size hsize items = [items] := by
  rw [batches, dif_neg hne, List.take_of_length_le hle, List.drop_eq_nil_of_le hle, batches_nil]

theorem batches_append (hsize : 0 < size) (hlen : items.length = size) :
    batches size hsize (items ++ rest) = items :: batches size hsize rest := by
  have hne : items ++ rest ≠ [] := by
    intro h
    rw [(List.append_eq_nil_iff.1 h).1, List.length_nil] at hlen
    omega
  rw [batches, dif_neg hne, List.take_left' hlen, List.drop_left' hlen]

end Batches

namespace NumberedDfa

variable {M : Dfa} {delimiter : String} {size : Nat}

theorem length_of_mapM_decode {lines : List String} {words : List Word}
    (h : lines.mapM (Word.decode delimiter) = .ok words) : words.length = lines.length := by
  induction lines generalizing words with
  | nil =>
    cases h
    rfl
  | cons line lines ih =>
    rw [List.mapM_cons] at h
    cases hw : Word.decode delimiter line with
    | error e =>
      rw [hw] at h
      cases h
    | ok w =>
      cases hrest : lines.mapM (Word.decode delimiter) with
      | error e =>
        rw [hw, hrest] at h
        cases h
      | ok rest =>
        rw [hw, hrest] at h
        cases h
        rw [List.length_cons, List.length_cons, ih hrest]

/-- Only a line that cannot be decoded keeps a batch from being labelled. -/
theorem tryReports_ofDfa (M : Dfa) (delimiter : String) (lines : List String) :
    (ofDfa M).tryReports delimiter lines =
      match lines.mapM (Word.decode delimiter) with
      | .error e => .error (.decode e)
      | .ok words => .ok ((ofDfa M).labelBatch lines words) := by
  cases h : lines.mapM (Word.decode delimiter) with
  | error e => simp only [tryReports, h]
  | ok words =>
    have hlen : ((ofDfa M).accepts words).length = lines.length := by
      rw [accepts_eq_map, List.length_map, length_of_mapM_decode h]
    simp only [tryReports, h, tryAccepts_ofDfa, if_pos hlen]
    rfl

/-- One batch more: its reports, or the failure to decode it. -/
theorem recognizeBatches_cons (M : Dfa) (delimiter : String) (lines : List String)
    (rest : List (List String)) :
    ((ofDfa M).recognizeBatches delimiter (lines :: rest)).mapFailure .decode =
      .afterward ((ofDfa M).tryReports delimiter lines)
        (((ofDfa M).recognizeBatches delimiter rest).mapFailure .decode) := by
  rw [recognizeBatches, tryReports_ofDfa]
  cases lines.mapM (Word.decode delimiter) with
  | error e => rfl
  | ok words => rfl

/-- Collecting lines is cutting them into batches, whatever the delimiter. -/
theorem collect_eq_recognizeBatches (M : Dfa) (delimiter : String) (hsize : 0 < size)
    (lines : List String) : ∀ batch : List String, batch.length < size →
      (ofDfa M).collect delimiter size batch lines =
        ((ofDfa M).recognizeBatches delimiter (batches size hsize (batch ++ lines))).mapFailure
          .decode := by
  induction lines with
  | nil =>
    intro batch hlt
    rw [collect, List.append_nil]
    by_cases hne : batch = []
    · rw [if_pos hne, hne, batches_nil]
      rfl
    · rw [if_neg hne, batches_of_length_le hsize hne (Nat.le_of_lt hlt), recognizeBatches_cons]
      rfl
  | cons line lines ih =>
    intro batch hlt
    have happend : batch ++ line :: lines = (batch ++ [line]) ++ lines := by simp
    have hlen : (batch ++ [line]).length = batch.length + 1 := by simp
    rw [collect]
    by_cases hfull : (batch ++ [line]).length = size
    · -- The batch is full: it is labelled, and the next one begins empty.
      rw [if_pos hfull, happend, batches_append hsize hfull, recognizeBatches_cons, ih [] hsize]
      rfl
    · rw [if_neg hfull, happend]
      exact ih (batch ++ [line]) (by omega)

end NumberedDfa

/-! ## Reports of decoded lines -/

/-- With a delimiter every line encodes a word. -/
theorem Word.exists_decode {delimiter : String} (hd : delimiter ≠ "") :
    ∃ word : String → Word, ∀ line, Word.decode delimiter line = .ok (word line) := by
  refine ⟨fun line => ((Word.decode delimiter line).toOption).getD [], fun line => ?_⟩
  have hne : delimiter.toList ≠ [] := by simpa using hd
  by_cases hline : line.toList = []
  · simp [decode, decodeNames, hline, Except.map, Except.toOption]
  · simp [decode, decodeNames, hline, hne, Except.map, Except.toOption]

namespace Dfa

variable {delimiter : String} {word : String → Word}

theorem accepted_reportOn (M : Dfa) (line : String) (w : Word) :
    (M.reportOn line w).accepted = M.accepts w := by
  obtain ⟨q, -, -, hout⟩ := M.outcome_run w
  rw [reportOn, accepts]
  generalize M.run w = c at hout ⊢
  cases hout <;> rfl

theorem summary_reportOn (M : Dfa) (line : String) (w : Word) :
    (M.reportOn line w).summary = ⟨line, M.accepts w, none⟩ := by
  have hline : (M.reportOn line w).line = line := by
    rw [reportOn]
    cases M.run w <;> rfl
  rw [Report.summary, hline, accepted_reportOn]

/-- Lines that can be decoded are reported before what is behind them is looked at. -/
theorem recognizeEach_append (M : Dfa) {lines : List String}
    (hword : ∀ line ∈ lines, Word.decode delimiter line = .ok (word line)) (rest : List String) :
    M.recognizeEach delimiter (lines ++ rest) =
      (M.recognizeEach delimiter rest).before (lines.map fun line => M.reportOn line (word line)) := by
  induction lines with
  | nil => rfl
  | cons line lines ih =>
    obtain ⟨hline, hlines⟩ := List.forall_mem_cons.1 hword
    rw [List.cons_append, recognizeEach, hline]
    simp only [ih hlines]
    rfl

theorem recognizeEach_eq (M : Dfa) (hword : ∀ line, Word.decode delimiter line = .ok (word line))
    (lines : List String) : M.recognizeEach delimiter lines =
      ⟨lines.map fun line => M.reportOn line (word line), none⟩ := by
  have hlines : ∀ line ∈ lines, Word.decode delimiter line = .ok (word line) :=
    fun line _ => hword line
  have h := M.recognizeEach_append hlines []
  simpa [recognizeEach, Produced.before, Produced.done] using h

/-- The labels of a batch are the summaries of the reports of its lines. -/
theorem labelBatch_eq (M : Dfa) (word : String → Word) (lines : List String) :
    (NumberedDfa.ofDfa M).labelBatch lines (lines.map word) =
      (lines.map fun line => M.reportOn line (word line)).map Report.summary := by
  rw [NumberedDfa.labelBatch, NumberedDfa.accepts_eq_map, List.map_map, List.map_map]
  have hzip : (lines.map id).zip (lines.map (M.accepts ∘ word)) =
      lines.map fun line => (line, M.accepts (word line)) := List.zip_map'
  rw [List.map_id] at hzip
  rw [hzip, List.map_map]
  refine List.map_congr_left fun line _ => ?_
  exact (M.summary_reportOn line (word line)).symm

/-- Batches that can be decoded are reported before what is behind them is looked at. -/
theorem recognizeBatches_append (M : Dfa) {cut : List (List String)}
    (hword : ∀ line ∈ cut.flatten, Word.decode delimiter line = .ok (word line))
    (rest : List (List String)) : (NumberedDfa.ofDfa M).recognizeBatches delimiter (cut ++ rest) =
      ((NumberedDfa.ofDfa M).recognizeBatches delimiter rest).before
        ((cut.flatten.map fun line => M.reportOn line (word line)).map Report.summary) := by
  induction cut with
  | nil => rfl
  | cons lines cut ih =>
    rw [List.flatten_cons, List.forall_mem_append] at hword
    rw [List.cons_append, NumberedDfa.recognizeBatches, mapM_eq_ok_map hword.1]
    simp only [ih hword.2, labelBatch_eq, Produced.before, List.flatten_cons, List.map_append,
      List.append_assoc]

/-- The reports of batches are the summaries of the reports of the lines in them. -/
theorem recognizeBatches_eq (M : Dfa)
    (hword : ∀ line, Word.decode delimiter line = .ok (word line)) (cut : List (List String)) :
    (NumberedDfa.ofDfa M).recognizeBatches delimiter cut =
      ⟨(cut.flatten.map fun line => M.reportOn line (word line)).map Report.summary, none⟩ := by
  have hlines : ∀ line ∈ cut.flatten, Word.decode delimiter line = .ok (word line) :=
    fun line _ => hword line
  have h := M.recognizeBatches_append hlines []
  simpa [NumberedDfa.recognizeBatches, Produced.before, Produced.done] using h

/-- With a delimiter and a positive batch size every line is reported, in order, in batches as well
as line by line, and a batch says of a line what its own report says under `word` and `accepted`.
Collecting the lines one by one gives the same reports, with no look-up that misses and no line
without a label. -/
theorem batches_report_acceptance (M : Dfa) (delimiter : String) (hd : delimiter ≠ "") (size : Int)
    (hsize : 1 ≤ size) (lines : List String) :
    ∃ reports : List Report,
      M.recognize delimiter .each lines = .ok ⟨reports, none⟩ ∧
      M.recognize delimiter (.batched size) lines = .ok ⟨reports.map Report.summary, none⟩ ∧
      reports.map Report.line = lines ∧
      (reports.map fun r => r.summary.toDatum) =
        (reports.map fun r => r.toDatum.only ["word", "accepted"]) ∧
      (NumberedDfa.ofDfa M).collect delimiter size.toNat [] lines =
        ⟨reports.map Report.summary, none⟩ := by
  obtain ⟨word, hword⟩ := Word.exists_decode hd
  have hpos : 0 < size.toNat := by omega
  have hbatches := M.recognizeBatches_eq hword (batches size.toNat hpos lines)
  rw [flatten_batches] at hbatches
  refine ⟨lines.map fun line => M.reportOn line (word line), ?_, ?_, ?_, ?_, ?_⟩
  · rw [recognize, recognizeEach_eq M hword]
  · rw [recognize, dif_pos hpos, hbatches]
  · rw [List.map_map]
    refine (List.map_congr_left fun line _ => ?_).trans (List.map_id lines)
    exact congrArg Report.line (M.summary_reportOn line (word line))
  · exact List.map_congr_left fun r _ => r.toDatum_summary
  · rw [NumberedDfa.collect_eq_recognizeBatches M delimiter hpos lines [] hpos, List.nil_append,
      hbatches]
    rfl

/-- The lines `1::0`, the empty one and `1::2` in batches of two, for an odd number of ones. -/
theorem parity_batches_report_acceptance :
    ∃ M, Language.build Language.parity = .ok M ∧ "::" ≠ "" ∧ (1 : Int) ≤ 2 ∧
      ∃ reports : List Report,
        M.recognize "::" .each ["1::0", "", "1::2"] = .ok ⟨reports, none⟩ ∧
        M.recognize "::" (.batched 2) ["1::0", "", "1::2"] =
          .ok ⟨reports.map Report.summary, none⟩ ∧
        reports.map Report.line = ["1::0", "", "1::2"] ∧
        (reports.map fun r => r.summary.toDatum) =
          (reports.map fun r => r.toDatum.only ["word", "accepted"]) ∧
        (NumberedDfa.ofDfa M).collect "::" 2 [] ["1::0", "", "1::2"] =
          ⟨reports.map Report.summary, none⟩ := by
  obtain ⟨M, hM⟩ : ∃ M, Language.build Language.parity = .ok M := ⟨_, rfl⟩
  have hd : "::" ≠ "" := by decide
  have hsize : (1 : Int) ≤ 2 := by decide
  exact ⟨M, hM, hd, hsize, M.batches_report_acceptance "::" hd 2 hsize ["1::0", "", "1::2"]⟩

end Dfa
end WordAutomata
