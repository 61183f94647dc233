import WordAutomata.Command.Recognize
import WordAutomata.Proofs.Except
import WordAutomata.Proofs.Files.Tree
import WordAutomata.Proofs.Json.Lines
import WordAutomata.Proofs.Recognition.Failure

/-!
# The command reports on every line

A task that has its automaton, its lines and a place for its reports is carried out to the end. The
reports are those of the lines, one record on a line, and reading the records back gives the lines.
Nothing else is written but the log.
-/
namespace WordAutomata

/-- The field of a record. -/
def Datum.field? (name : String) : Datum → Option Datum
  | .record fields => Fields.get? fields name
  | _ => none

namespace Report

theorem plain_toDatum (r : Report) : r.toDatum.Plain := by
  obtain ⟨line, accepted, detail⟩ := r
  cases detail with
  | none => simp [toDatum, Datum.Plain, Datum.PlainFields, Fields.names]
  | some detail =>
    obtain ⟨outcome, reason, position⟩ := detail
    cases reason <;> simp [toDatum, Datum.Plain, Datum.PlainFields, Fields.names]

theorem field?_word (r : Report) : r.toDatum.field? "word" = some (.text r.line) := rfl

theorem field?_accepted (r : Report) :
    r.toDatum.field? "accepted" = some (.bool r.accepted) := rfl

end Report

namespace Command

/-! ## What the arguments ask for -/

/-- A batch of a task holds a line. -/
theorem holdsLine_of_recognizeTask {args : List String} {task : RecognizeTask} {batching : Batching}
    (htask : recognizeTask args = .ok task) (hbatching : task.batching = .value batching) :
    batching.HoldsLine := by
  obtain ⟨settings, -, htask⟩ := bind_eq_ok_iff.1 htask
  rw [RecognizeSettings.task?] at htask
  cases hsource : settings.source with
  | none =>
    rw [hsource] at htask
    cases htask
  | some source =>
    simp only [hsource] at htask
    split at htask
    · cases htask
    rename_i hbad
    cases htask
    simp only [RecognizeSettings.batching] at hbatching
    cases hbatch : settings.batchSize with
    | blank =>
      rw [hbatch] at hbatching
      cases hbatching
    | value n =>
      have hone : 1 ≤ n := by simpa [RecognizeSettings.hasBadBatchSize, Setting.value?, hbatch] using hbad
      rw [hbatch, Setting.map, Setting.value.injEq] at hbatching
      split at hbatching
      · exact hbatching ▸ hone
      · exact hbatching ▸ trivial

namespace RecognizeTask

/-- The text that a task takes its lines from: that of a file, or else the input. -/
def Takes (task : RecognizeTask) (w : World) (content : String) : Prop :=
  match task.input with
  | none => w.input = content
  | some setting => ∃ path, setting = .value path ∧ w.tree.read path = .ok content

/-- There is a place for the reports of a task: the output, or a file that can be opened and is not
the file of lines. -/
def CanReport (task : RecognizeTask) (w : World) : Prop :=
  match task.output with
  | none => True
  | some setting => ∃ path place tree, setting = .value path ∧
      w.tree.emptyFile path = .ok (place, tree) ∧
      ∀ lines, task.input = some (.value lines) → w.tree.locate lines ≠ .ok place

/-- A task has put out a text, and has changed no file but the one that it was to write. -/
def Reports (task : RecognizeTask) (w w' : World) (text : String) : Prop :=
  match task.output with
  | none => w'.tree = w.tree ∧ w'.output = w.output ++ text
  | some setting => w'.output = w.output ∧ ∃ path place, setting = .value path ∧
      w'.tree.locate path = .ok place ∧ w'.tree.read path = .ok text ∧
      w'.readFile path = .ok text ∧
      ∀ other, other ≠ place → ∀ content,
        w'.tree.node? other = some (.file content) ↔ w.tree.node? other = some (.file content)

/-- The world in which the lines of a task have been taken. -/
def taken (task : RecognizeTask) (w : World) : World :=
  match task.input with
  | none => { w with input := "" }
  | some _ => w

end RecognizeTask

namespace RecognizeTask

variable (task : RecognizeTask) (w : World)

@[simp] theorem taken_tree : (task.taken w).tree = w.tree := by
  unfold taken
  split <;> rfl

@[simp] theorem taken_output : (task.taken w).output = w.output := by
  unfold taken
  split <;> rfl

variable {task : RecognizeTask} {w w' : World} {text : String}

/-- Without a file for the reports, their text is what has been added to the output. -/
theorem Reports.output_eq (h : task.Reports w w' text) (houtput : task.output = none) :
    w'.output = w.output ++ text := by
  rw [Reports, houtput] at h
  exact h.2

end RecognizeTask

/-! ## Opening -/

theorem takeLines_eq_ok {task : RecognizeTask} {w : World} {content : String}
    (h : task.Takes w content) :
    takeLines task w =
      .ok (String.ofList (Text.unifyLineEnds content.toList), task.taken w) := by
  unfold RecognizeTask.Takes at h
  unfold takeLines RecognizeTask.taken
  cases hinput : task.input with
  | none =>
    simp only [hinput] at h ⊢
    rw [World.readInput, h]
  | some setting =>
    simp only [hinput] at h ⊢
    obtain ⟨path, rfl, hread⟩ := h
    rw [Setting.require, ok_bind, World.readFile, hread, ok_bind]
    rfl

theorem openTask_eq_ok {task : RecognizeTask} {w w' : World} {content : String}
    {place : Option Files.Location} (h : task.Takes w content)
    (hempty : emptyReports task w = .ok (place, w')) (h' : task.Takes w' content) :
    openTask task w =
      .ok (String.ofList (Text.unifyLineEnds content.toList), place, task.taken w') := by
  rw [openTask, takeLines_eq_ok h, ok_bind, hempty, ok_bind]
  simp only [takeLines_eq_ok h', ok_bind]
  rfl

/-- Emptying the file of reports keeps the lines, unless they are in that file. -/
theorem takes_of_emptyFile {task : RecognizeTask} {w : World} {content : String}
    (h : task.Takes w content) {path : Files.Path} {place : Files.Location} {tree : Files.Tree}
    (hempty : w.tree.emptyFile path = .ok (place, tree))
    (hother : ∀ lines, task.input = some (.value lines) → w.tree.locate lines ≠ .ok place) :
    task.Takes { w with tree } content := by
  unfold RecognizeTask.Takes at h ⊢
  cases hinput : task.input with
  | none => simpa only [hinput] using h
  | some setting =>
    simp only [hinput] at h ⊢
    obtain ⟨lines, rfl, hread⟩ := h
    have hwrites := Files.Tree.writes_of_emptyFile hempty
    exact ⟨lines, rfl, hwrites.read_other (hother lines hinput) hread⟩

theorem takeLines_log {task : RecognizeTask} {w w' : World} {text : String}
    (h : takeLines task w = .ok (text, w')) :
    w'.log = w.log := by
  rw [takeLines] at h
  split at h
  · cases h
    rfl
  · obtain ⟨path, -, h⟩ := bind_eq_ok_iff.1 h
    obtain ⟨content, -, h⟩ := bind_eq_ok_iff.1 h
    cases h
    rfl

theorem emptyReports_log {task : RecognizeTask} {w w' : World} {place : Option Files.Location}
    (h : emptyReports task w = .ok (place, w')) : w'.log = w.log := by
  rw [emptyReports] at h
  split at h
  · cases h
    rfl
  · obtain ⟨path, -, h⟩ := bind_eq_ok_iff.1 h
    obtain ⟨⟨file, emptied⟩, hfile, h⟩ := bind_eq_ok_iff.1 h
    cases h
    rw [World.emptyFile] at hfile
    split at hfile
    · cases hfile
      rfl
    · cases hfile

theorem openTask_log {task : RecognizeTask} {w w' : World} {text : String}
    {place : Option Files.Location} (h : openTask task w = .ok (text, place, w')) : w'.log = w.log := by
  obtain ⟨-, -, h⟩ := bind_eq_ok_iff.1 h
  obtain ⟨⟨file, emptied⟩, hempty, h⟩ := bind_eq_ok_iff.1 h
  obtain ⟨⟨content, taken⟩, htake, h⟩ := bind_eq_ok_iff.1 h
  cases h
  rw [takeLines_log htake, emptyReports_log hempty]

theorem writeReports_log (place : Option Files.Location) (w : World) (text : String) :
    (writeReports place w text).log = w.log := by
  cases place <;> rfl

/-! ## Carrying out -/

theorem reportText_eq (reports : List Report) :
    reportText reports = String.join ((reports.map Report.toDatum).map Json.writeLine) := by
  rw [reportText, List.map_map]
  rfl

theorem plain_of_mem_records {reports : List Report} :
    ∀ d ∈ reports.map Report.toDatum, d.Plain := by
  intro d hd
  obtain ⟨r, -, rfl⟩ := List.mem_map.1 hd
  exact r.plain_toDatum

theorem countP_records (reports : List Report) :
    ((reports.map Report.toDatum).countP fun d => d.field? "accepted" = some (.bool true)) =
      reports.countP fun r => r.accepted := by
  rw [List.countP_map]
  refine List.countP_congr fun r _ => ?_
  simp [Report.field?_accepted]

theorem return_not_mem_reportText (reports : List Report) : '\r' ∉ (reportText reports).toList := by
  intro hmem
  rw [reportText_eq] at hmem
  rcases Json.printable_writeLines plain_of_mem_records _ hmem with h | h
  · exact absurd h (by decide)
  · exact absurd h (by decide)

/-- What a task notes of its reports unless it fails: how many there are, and how many words are
accepted. -/
def summaryLines (produced : Produced DecodeError Report) : List String :=
  match produced.failure with
  | some _ => []
  | none => ["words: " ++ Text.decimal produced.items.length,
      "accepted: " ++ Text.decimal (produced.items.countP fun r => r.accepted)]

/-- How a task ends that has put out a text and noted some lines: with or without a failure. -/
inductive RecognizeTask.Ends (task : RecognizeTask) (w : World) (text : String)
    (lines : List String) : Option Failure → Ending → Prop
  | finished {w' : World} (hreports : task.Reports w w' text) (hlog : w'.log = w.log ++ lines) :
      Ends task w text lines none (.finished w')
  | failed {w' : World} {failure : Failure} (hreports : task.Reports w w' text)
      (hlog : w'.log = w.log ++ lines) :
      Ends task w text lines (some failure) (.failed failure w')

/-- A text without carriage returns is what reading its file gives. -/
theorem readFile_eq_ok {w : World} {path : Files.Path} {text : String}
    (hread : w.tree.read path = .ok text) (hreturn : '\r' ∉ text.toList) :
    w.readFile path = .ok text := by
  rw [World.readFile, hread]
  simp only [Text.unifyLineEnds_of_not_mem hreturn, String.ofList_toList]

/-- A task whose lines can be taken and whose reports have a place opens both, and whatever reports
are written then are put out. -/
theorem exists_openTask_eq_ok {task : RecognizeTask} {w : World} {content : String}
    (htakes : task.Takes w content) (hcan : task.CanReport w) :
    ∃ place w', openTask task w =
        .ok (String.ofList (Text.unifyLineEnds content.toList), place, w') ∧
      ∀ reports, task.Reports w (writeReports place w' (reportText reports)) (reportText reports) := by
  unfold RecognizeTask.CanReport at hcan
  cases houtput : task.output with
  | none =>
    have hempty : emptyReports task w = .ok (none, w) := by
      rw [emptyReports, houtput]
    refine ⟨none, task.taken w, openTask_eq_ok htakes hempty htakes, ?_⟩
    intro reports
    simp [RecognizeTask.Reports, houtput, writeReports, World.print]
  | some setting =>
    simp only [houtput] at hcan
    obtain ⟨path, place, tree, rfl, hfile, hother⟩ := hcan
    have hempty : emptyReports task w = .ok (some place, { w with tree }) := by
      rw [emptyReports, houtput]
      simp only [Setting.require, ok_bind, World.emptyFile, hfile]
      rfl
    have htakes' := takes_of_emptyFile htakes hfile hother
    refine ⟨some place, task.taken { w with tree }, openTask_eq_ok htakes hempty htakes', ?_⟩
    intro reports
    have hwrites := (Files.Tree.writes_of_emptyFile hfile).fill (reportText reports)
    have htree : (writeReports (some place) (task.taken { w with tree }) (reportText reports)).tree =
        tree.put place (.file (reportText reports)) := by
      simp [writeReports, World.fill]
    rw [RecognizeTask.Reports, houtput]
    refine ⟨?_, path, place, rfl, ?_, ?_, ?_, ?_⟩
    · simp [writeReports, World.fill]
    · rw [htree]
      exact hwrites.locate
    · rw [htree]
      exact hwrites.read
    · exact readFile_eq_ok (htree ▸ hwrites.read) (return_not_mem_reportText reports)
    · intro other hne old
      rw [htree]
      exact hwrites.file_iff hne old

/-- A task whose lines can be taken and whose reports have a place puts out the reports that are
produced, and fails if producing them does. -/
theorem runTask_ends {task : RecognizeTask} {batching : Batching} {M : Dfa} {w : World}
    {content : String} {produced : Produced DecodeError Report} (htakes : task.Takes w content)
    (hcan : task.CanReport w)
    (hproduced : M.recognize task.delimiterText batching
      (Text.lines (String.ofList (Text.unifyLineEnds content.toList))) = .ok produced) :
    task.Ends w (reportText produced.items) (summaryLines produced)
      (produced.failure.map task.decodeFailure) (runTask task batching M w) := by
  obtain ⟨place, w', hopen, hreports⟩ := exists_openTask_eq_ok htakes hcan
  have hwritten : (writeReports place w' (reportText produced.items)).log = w.log := by
    rw [writeReports_log, openTask_log hopen]
  rw [runTask, hopen]
  simp only [hproduced, finishTask, summaryLines]
  cases produced.failure with
  | some e =>
    refine .failed (hreports produced.items) ?_
    rw [hwritten, List.append_nil]
  | none =>
    refine .finished (hreports produced.items) ?_
    simp only [World.note, hwritten, List.append_assoc, List.singleton_append]

/-- A task all of whose lines are reported is carried out. -/
theorem exists_runTask_eq_finished {task : RecognizeTask} {batching : Batching} {M : Dfa}
    {w : World} {content : String} {reports : List Report} (htakes : task.Takes w content)
    (hcan : task.CanReport w)
    (hreports : M.recognize task.delimiterText batching
      (Text.lines (String.ofList (Text.unifyLineEnds content.toList))) = .ok ⟨reports, none⟩) :
    ∃ w', runTask task batching M w = .finished w' ∧
      task.Reports w w' (reportText reports) ∧
      w'.log = w.log ++ ["words: " ++ Text.decimal reports.length,
        "accepted: " ++ Text.decimal (reports.countP fun r => r.accepted)] := by
  have hends := runTask_ends htakes hcan hreports
  generalize runTask task batching M w = ending at hends ⊢
  cases hends with
  | finished hput hlog => exact ⟨_, rfl, hput, hlog⟩

/-! ## The command -/

/-- What it means that the lines of a text have been recognized for a task. -/
structure RecognizeTask.CarriedOut (task : RecognizeTask) (batching : Batching) (M : Dfa)
    (delimiter content : String) (w w' : World) (lines : List String) (records : List Datum) :
    Prop where
  /-- The lines are those of the text, with every line end turned into a line feed. -/
  lines_eq : Text.HasLines (Text.unifyLineEnds content.toList) (lines.map String.toList)
  /-- Every line has its record, in order. -/
  records_eq : ∃ word : String → Word, (∀ line, Word.decode delimiter line = .ok (word line)) ∧
    records = lines.map fun line => (batching.shown (M.reportOn line (word line))).toDatum
  /-- The records have been put out, a line for each, and no other file has changed. -/
  reports : task.Reports w w' (String.join (records.map Json.writeLine))
  log_eq : w'.log = w.log ++ ["automaton: " ++ sizeText M,
    "words: " ++ Text.decimal lines.length, "accepted: " ++
      Text.decimal (records.countP fun d => d.field? "accepted" = some (.bool true))]
  /-- Reading what has been put out gives the records. -/
  read_back : Json.readLines (String.join (records.map Json.writeLine)) = ⟨records, none⟩
  words_eq : records.map (Datum.field? "word") = lines.map fun line => some (.text line)

/-- A task is carried out to the end if its automaton can be loaded, its lines can be taken, its
delimiter is not empty, and there is a place for its reports that does not take the lines away. -/
theorem recognize_carries_out (args : List String) (w : World) (task : RecognizeTask)
    (batching : Batching) (M : Dfa) (delimiter content : String)
    (htask : recognizeTask args = .ok task) (hbatching : task.batching = .value batching)
    (hload : task.source.load w = .ok M) (hdelimiter : task.delimiter = .value delimiter)
    (hne : delimiter ≠ "") (htakes : task.Takes w content) (hcan : task.CanReport w) :
    ∃ w' lines records, recognize args w = .finished w' ∧
      task.CarriedOut batching M delimiter content w w' lines records := by
  obtain ⟨word, hword⟩ := Word.exists_decode hne
  have hsize := holdsLine_of_recognizeTask htask hbatching
  have htext : task.delimiterText = delimiter := by
    rw [RecognizeTask.delimiterText, hdelimiter]
    rfl
  have hrecognize := M.recognize_eq_ok hword hsize
    (Text.lines (String.ofList (Text.unifyLineEnds content.toList)))
  rw [← htext] at hrecognize
  obtain ⟨w', hrun, hreports, hlog⟩ :=
    exists_runTask_eq_finished (w := w.note ("automaton: " ++ sizeText M)) htakes hcan hrecognize
  have hlines := Text.hasLines_lines content
  generalize Text.lines (String.ofList (Text.unifyLineEnds content.toList)) = lines at *
  generalize hr : (lines.map fun line => batching.shown (M.reportOn line (word line))) = reports
    at *
  refine ⟨w', lines, reports.map Report.toDatum, ?_, hlines, ⟨word, hword, ?_⟩, ?_, ?_, ?_, ?_⟩
  · rw [recognize, htask]
    simp only [hbatching, Setting.require, hload]
    exact hrun
  · rw [← hr, List.map_map]
    rfl
  · rw [← reportText_eq]
    exact hreports
  · rw [hlog, countP_records, ← hr, List.length_map, World.note, List.append_assoc]
    rfl
  · exact Json.readLines_writeLine plain_of_mem_records
  · rw [← hr, List.map_map, List.map_map]
    refine List.map_congr_left fun line _ => ?_
    simp only [Function.comp, Report.field?_word, Batching.line_shown, Dfa.line_reportOn]

/-- Two lines from a file, in batches, to a file in a directory that is made. -/
theorem recognize_carries_out_parity :
    ∃ (args : List String) (w : World) (task : RecognizeTask) (M : Dfa),
      recognizeTask args = .ok task ∧ task.batching = .value (.batched 2) ∧
      task.source.load w = .ok M ∧ task.delimiter = .value "," ∧ "," ≠ "" ∧
      task.Takes w "1,0\r\n\n" ∧ task.CanReport w ∧
      ∃ w' lines records, recognize args w = .finished w' ∧
        task.CarriedOut (.batched 2) M "," "1,0\r\n\n" w w' lines records := by
  let args := ["--language", "parity", "--input", "in", "--output", "sub/out", "--batched",
    "--batch-size", "2"]
  let w : World := ⟨⟨[(["in"], .file "1,0\r\n\n")]⟩, "", "", []⟩
  have hin : Files.Path.ofText "in" = ⟨0, ["in"]⟩ := by cbv
  have hout : Files.Path.ofText "sub/out" = ⟨0, ["sub", "out"]⟩ := by cbv
  let task : RecognizeTask := ⟨.language (.value "parity"), some (.value ⟨0, ["in"]⟩),
    some (.value ⟨0, ["sub", "out"]⟩), .value ",", .value (.batched 2)⟩
  have htask : recognizeTask args = .ok task := by
    simp only [task, ← hin, ← hout]
    rfl
  obtain ⟨M, hM⟩ : ∃ M, task.source.load w = .ok M := ⟨_, rfl⟩
  have htakes : task.Takes w "1,0\r\n\n" := ⟨⟨0, ["in"]⟩, rfl, rfl⟩
  have hcan : task.CanReport w := by
    refine ⟨⟨0, ["sub", "out"]⟩, ["sub", "out"], _, rfl, rfl, ?_⟩
    rintro lines ⟨⟩ hlines
    have hplace : w.tree.locate ⟨0, ["in"]⟩ = .ok ["in"] := rfl
    rw [hplace] at hlines
    simp at hlines
  exact ⟨args, w, task, M, htask, rfl, hM, rfl, by decide, htakes, hcan,
    recognize_carries_out args w task (.batched 2) M "," _ htask rfl hM rfl (by decide) htakes hcan⟩

/-- A line to recognize in the input, and no files. -/
def oneLineWorld : World := ⟨.empty, "1\n", "", []⟩

/-- Reports cannot go to a directory, such as the working directory: the command fails, though the
language, the lines and the delimiter are there, and the lines are not in a file. -/
theorem directory_takes_no_reports :
    ∃ task M, recognizeTask ["--language", "parity", "--output", "."] = .ok task ∧
      task.batching = .value .each ∧ task.source.load oneLineWorld = .ok M ∧
      task.delimiter = .value "," ∧ task.input = none ∧ task.Takes oneLineWorld "1\n" ∧
      ∃ failure w', recognize ["--language", "parity", "--output", "."] oneLineWorld =
          .failed failure w' ∧
        failure = .path ⟨.isDirectory, .ofText "."⟩ ∧
        failure.message = "[Errno 21] Is a directory: '.'" := by
  have hdot : Files.Path.ofText "." = ⟨0, []⟩ := by cbv
  let task : RecognizeTask := ⟨.language (.value "parity"), none, some (.value ⟨0, []⟩),
    .value ",", .value .each⟩
  have htask : recognizeTask ["--language", "parity", "--output", "."] = .ok task := by
    simp only [task, ← hdot]
    rfl
  obtain ⟨M, hM⟩ : ∃ M, task.source.load oneLineWorld = .ok M := ⟨_, rfl⟩
  have hopen : ∀ line, openTask task (oneLineWorld.note line) =
      .error (.path ⟨.isDirectory, ⟨0, []⟩⟩) := fun _ => rfl
  have hbatching : task.batching.require .batchSize = .ok .each := rfl
  refine ⟨task, M, htask, rfl, hM, rfl, rfl, rfl, _,
    oneLineWorld.note ("automaton: " ++ sizeText M), ?_, rfl, ?_⟩
  · rw [hdot, recognize, htask]
    simp only [hbatching, hM, runTask, hopen]
  · rw [hdot]
    decide

end Command
end WordAutomata
