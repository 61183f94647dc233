import WordAutomata.Proofs.Command.Recognize
import WordAutomata.Proofs.Language.Named

/-!
# How the command that recognizes lines fails

The automaton is loaded and the lines are found before anything is written, so a task that stops
there leaves everything as it was but for the log. Behind that point only a line can fail that is
not empty and that there is no delimiter for. The reports produced before it have been put out.
-/
namespace WordAutomata

/-! ## Kinds of failures -/

/-- What failures are told apart by. -/
inductive FailureKind where
  | unfitValue
  | unfitType
  | missingAttribute
  | missingKey
  | indexOutOfRange
  | fileSystem (fault : Files.Fault)
deriving DecidableEq

def DiagramDefect.kind : DiagramDefect → FailureKind
  | .unknownSource _ => .missingKey
  | .unknownSymbol _ => .missingKey
  | _ => .unfitValue

def LanguageError.kind : LanguageError → FailureKind
  | .noPositions => .indexOutOfRange
  | .diagram defect => defect.kind
  | _ => .unfitValue

/-- The null character is an unfit value, everything else is a matter of the file system. -/
def Files.Fault.kind : Files.Fault → FailureKind
  | .nullCharacter => .unfitValue
  | fault => .fileSystem fault

namespace Command

def Need.kind : Need → FailureKind
  | .file => .missingAttribute
  | .directory => .missingAttribute
  | _ => .unfitType

def Failure.kind : Failure → FailureKind
  | .blank need => need.kind
  | .path e => e.fault.kind
  | .language e => e.kind
  | _ => .unfitValue

/-- A named language fails to be loaded because of its name alone. -/
theorem kind_of_named_eq_error {name : String} {e : LanguageError}
    (h : Language.named name = .error e) : e.kind = .unfitValue := by
  rcases Language.eq_of_named_eq_error h with rfl | ⟨kinds, depth, rfl⟩
  · rfl
  · rfl

/-- Of the failures to load an automaton those are noted that are an unfit value. -/
theorem isNoted_iff_of_load {source : Source} {w : World} {failure : Failure}
    (h : source.load w = .error failure) : isNoted failure = true ↔ failure.kind = .unfitValue := by
  cases source with
  | file setting =>
    rcases bind_eq_error_iff.1 h with h | ⟨path, -, h⟩
    · cases setting with
      | value path => cases h
      | blank =>
        cases h
        decide
    · rcases bind_eq_error_iff.1 h with h | ⟨text, -, h⟩
      · rw [World.readFile] at h
        split at h
        · cases h
        · rename_i e hread
          cases h
          simp only [isNoted, Failure.kind, decide_eq_true_eq]
          cases e.fault <;> simp [Files.Fault.kind]
      · obtain ⟨e, -, rfl⟩ := mapError_eq_error_iff.1 h
        exact ⟨fun _ => rfl, fun _ => rfl⟩
  | language setting =>
    rcases bind_eq_error_iff.1 h with h | ⟨name, -, h⟩
    · cases setting with
      | value name => cases h
      | blank =>
        cases h
        decide
    · obtain ⟨e, hnamed, rfl⟩ := mapError_eq_error_iff.1 h
      exact ⟨fun _ => kind_of_named_eq_error hnamed, fun _ => rfl⟩

/-! ## Stopping before anything is written -/

/-- The world in which a command has ended. -/
def Ending.world : Ending → World
  | .exited _ w => w
  | .finished w => w
  | .failed _ w => w

/-- What is noted of an automaton that has been loaded. -/
def sizeLine (M : Dfa) : String := "automaton: " ++ sizeText M

/-- What is noted when an automaton cannot be loaded. -/
def loadNote (message : String) : String := "could not load automaton: " ++ message

/-- What is noted of a failure to load an automaton: its message if it is an unfit value. -/
def loadLines (failure : Failure) : List String :=
  if failure.kind = .unfitValue then [loadNote failure.message] else []

namespace RecognizeTask

/-- A task stops with a failure and some lines noted, before it writes anything. -/
inductive Stops (task : RecognizeTask) (w : World) : Failure → List String → Prop
  | blankBatchSize (hbatching : task.batching = .blank) :
      Stops task w (.blank .batchSize) []
  | unloaded {batching : Batching} {failure : Failure} (hbatching : task.batching = .value batching)
      (hload : task.source.load w = .error failure) :
      Stops task w failure (loadLines failure)
  | blankInput {batching : Batching} {M : Dfa} (hbatching : task.batching = .value batching)
      (hload : task.source.load w = .ok M) (hinput : task.input = some .blank) :
      Stops task w (.blank .file) [sizeLine M]
  | unreadInput {batching : Batching} {M : Dfa} {path : Files.Path} {e : Files.PathError}
      (hbatching : task.batching = .value batching) (hload : task.source.load w = .ok M)
      (hinput : task.input = some (.value path)) (hread : w.tree.read path = .error e) :
      Stops task w (.path e) [sizeLine M]
  | blankOutput {batching : Batching} {M : Dfa} {content : String}
      (hbatching : task.batching = .value batching) (hload : task.source.load w = .ok M)
      (htakes : task.Takes w content) (houtput : task.output = some .blank) :
      Stops task w (.blank .directory) [sizeLine M]

/-- The file that the reports are to be written to, if there is one, can be opened and is not the
file of lines. -/
def CanOpen (task : RecognizeTask) (w : World) : Prop :=
  ∀ path, task.output = some (.value path) → ∃ place tree,
    w.tree.emptyFile path = .ok (place, tree) ∧
      ∀ lines, task.input = some (.value lines) → w.tree.locate lines ≠ .ok place

/-- Without a delimiter a line that is not empty is a failure. -/
inductive Undelimited (task : RecognizeTask) : Failure → Prop
  | empty (hdelimiter : task.delimiter = .value "") : Undelimited task (.decode .emptyDelimiter)
  | blank (hdelimiter : task.delimiter = .blank) : Undelimited task (.blank .delimiter)

/-- A task ends with a failure at the first line that is not empty. What has been put out are the
reports that were produced until then, those of the empty lines before it as far as their batches
are full. -/
inductive BreaksOff (task : RecognizeTask) (batching : Batching) (M : Dfa) (w : World)
    (lines : List String) (failure : Failure) (ending : Ending) : Prop
  | intro {n : Nat} {line : String} {rest : List String} {reports : List Report}
      (lines_eq : lines = List.replicate n "" ++ line :: rest) (hline : line ≠ "")
      (hproduced : M.recognize task.delimiterText batching lines =
        .ok ⟨reports, some .emptyDelimiter⟩)
      (reports_eq : reports =
        List.replicate (batching.complete n) (batching.shown (M.reportOn "" [])))
      (hends : task.Ends w (reportText reports) [sizeLine M] (some failure) ending) :
      BreaksOff task batching M w lines failure ending

/-- A task reports on every line, each of which can be decoded. -/
inductive Completes (task : RecognizeTask) (batching : Batching) (M : Dfa) (w : World)
    (lines : List String) (ending : Ending) : Prop
  | intro {word : String → Word} {reports : List Report}
      (hword : ∀ line ∈ lines, Word.decode task.delimiterText line = .ok (word line))
      (reports_eq : reports = lines.map fun line => batching.shown (M.reportOn line (word line)))
      (hends : task.Ends w (reportText reports) (sizeLine M :: summaryLines ⟨reports, none⟩) none
        ending) :
      Completes task batching M w lines ending

end RecognizeTask

variable {args : List String} {task : RecognizeTask} {batching : Batching} {M : Dfa} {w : World}

theorem recognize_eq_runTask (htask : recognizeTask args = .ok task)
    (hbatching : task.batching = .value batching) (hload : task.source.load w = .ok M) :
    recognize args w = runTask task batching M (w.note (sizeLine M)) := by
  rw [recognize, htask]
  simp only [hbatching, Setting.require, hload]
  rfl

theorem runTask_of_takeLines {failure : Failure} (h : takeLines task w = .error failure) :
    runTask task batching M w = .failed failure w := by
  rw [runTask, openTask, h]
  rfl

/-- A task that stops has noted its lines, and nothing else has changed. -/
theorem recognize_of_stops (htask : recognizeTask args = .ok task) {failure : Failure}
    {lines : List String} (h : task.Stops w failure lines) :
    recognize args w = .failed failure { w with log := w.log ++ lines } := by
  cases h with
  | blankBatchSize hbatching =>
    rw [recognize, htask]
    simp only [hbatching, Setting.require, List.append_nil]
  | unloaded hbatching hload =>
    rw [recognize, htask]
    simp only [hbatching, Setting.require, hload, noteLoadFailure, loadLines,
      isNoted_iff_of_load hload]
    split
    · rfl
    · rw [List.append_nil]
  | blankInput hbatching hload hinput =>
    rw [recognize_eq_runTask htask hbatching hload]
    refine runTask_of_takeLines ?_
    rw [takeLines, hinput]
    rfl
  | unreadInput hbatching hload hinput hread =>
    rw [recognize_eq_runTask htask hbatching hload]
    refine runTask_of_takeLines ?_
    rw [takeLines, hinput]
    simp only [Setting.require, ok_bind, World.readFile, World.note, hread]
    rfl
  | @blankOutput _ M content hbatching hload htakes houtput =>
    have htakes' : task.Takes (w.note (sizeLine M)) content := htakes
    have hempty : emptyReports task (w.note (sizeLine M)) = .error (.blank .directory) := by
      rw [emptyReports, houtput]
      rfl
    rw [recognize_eq_runTask htask hbatching hload, runTask, openTask, takeLines_eq_ok htakes',
      ok_bind, hempty]
    rfl

/-- A task that does not stop has everything that it needs. -/
theorem exists_takes_of_not_stops (h : ¬ ∃ failure lines, task.Stops w failure lines) :
    ∃ batching M content, task.batching = .value batching ∧ task.source.load w = .ok M ∧
      task.Takes w content ∧ task.output ≠ some .blank := by
  cases hbatching : task.batching with
  | blank => exact absurd ⟨_, _, .blankBatchSize hbatching⟩ h
  | value batching =>
    cases hload : task.source.load w with
    | error failure => exact absurd ⟨_, _, .unloaded hbatching hload⟩ h
    | ok M =>
      have htakes : ∃ content, task.Takes w content := by
        unfold RecognizeTask.Takes
        cases hinput : task.input with
        | none => exact ⟨w.input, rfl⟩
        | some setting =>
          cases setting with
          | blank => exact absurd ⟨_, _, .blankInput hbatching hload hinput⟩ h
          | value path =>
            cases hread : w.tree.read path with
            | error e => exact absurd ⟨_, _, .unreadInput hbatching hload hinput hread⟩ h
            | ok content => exact ⟨content, path, rfl, hread⟩
      obtain ⟨content, htakes⟩ := htakes
      refine ⟨batching, M, content, rfl, rfl, htakes, fun houtput => ?_⟩
      exact h ⟨_, _, .blankOutput hbatching hload htakes houtput⟩

theorem RecognizeTask.CanOpen.canReport (h : task.CanOpen w) (houtput : task.output ≠ some .blank) :
    task.CanReport w := by
  unfold RecognizeTask.CanReport
  cases hsetting : task.output with
  | none => trivial
  | some setting =>
    cases setting with
    | blank => exact absurd hsetting houtput
    | value path =>
      obtain ⟨place, tree, hfile, hother⟩ := h path hsetting
      exact ⟨path, place, tree, rfl, hfile, hother⟩

/-! ## What is noted -/

/-- Texts that begin with different characters are different, whatever stands behind. -/
theorem append_ne_append {front front' : String} {c c' : Char}
    (hfront : front.toList.head? = some c) (hfront' : front'.toList.head? = some c') (hc : c ≠ c')
    (behind behind' : String) : front ++ behind ≠ front' ++ behind' := by
  intro h
  have hhead := congrArg (fun line => line.toList.head?) h
  simp only [String.toList_append, List.head?_append, hfront, hfront', Option.some_or,
    Option.some.injEq] at hhead
  exact hc hhead

/-- A line that begins otherwise does not say that an automaton was not loaded. -/
theorem loadNote_ne {front : String} {c : Char} (hfront : front.toList.head? = some c)
    (hc : 'c' ≠ c) (message behind : String) : loadNote message ≠ front ++ behind :=
  append_ne_append (by decide) hfront hc message behind

theorem loadNote_injective : Function.Injective loadNote := fun _ _ h =>
  (String.append_right_inj _).1 h

theorem loadNote_ne_sizeLine (message : String) (M : Dfa) : loadNote message ≠ sizeLine M :=
  loadNote_ne (c := 'a') (by decide) (by decide) _ _

theorem loadNote_not_mem_summaryLines (message : String) (produced : Produced DecodeError Report) :
    loadNote message ∉ summaryLines produced := by
  have hwords : ∀ n, loadNote message ≠ "words: " ++ Text.decimal n := fun n =>
    loadNote_ne (c := 'w') (by decide) (by decide) _ _
  have haccepted : ∀ n, loadNote message ≠ "accepted: " ++ Text.decimal n := fun n =>
    loadNote_ne (c := 'a') (by decide) (by decide) _ _
  unfold summaryLines
  cases produced.failure <;> simp [hwords, haccepted]

theorem finishTask_log (task : RecognizeTask) (place : Option Files.Location) (w : World)
    (produced : Produced DecodeError Report) :
    (finishTask task place w produced).world.log = w.log ++ summaryLines produced := by
  unfold finishTask summaryLines
  cases produced.failure <;> simp [Ending.world, World.note, writeReports_log]

/-- Running a task does not note that the automaton was not loaded. -/
theorem exists_runTask_log (task : RecognizeTask) (batching : Batching) (M : Dfa) (w : World) :
    ∃ lines, (runTask task batching M w).world.log = w.log ++ lines ∧
      ∀ message, loadNote message ∉ lines := by
  rw [runTask]
  cases hopen : openTask task w with
  | error failure => exact ⟨[], (List.append_nil _).symm, fun _ => List.not_mem_nil⟩
  | ok opened =>
    obtain ⟨text, place, w'⟩ := opened
    rw [← openTask_log hopen]
    simp only
    cases M.recognize task.delimiterText batching (Text.lines text) with
    | error e => exact ⟨[], (List.append_nil _).symm, fun _ => List.not_mem_nil⟩
    | ok produced =>
      exact ⟨summaryLines produced, finishTask_log task place w' produced,
        fun message => loadNote_not_mem_summaryLines message produced⟩

/-- The command adds lines to the log, and one of them says that the automaton was not loaded if and
only if that failed because of an unfit value. -/
theorem exists_recognize_log (htask : recognizeTask args = .ok task) (w : World) :
    ∃ added, (recognize args w).world.log = w.log ++ added ∧ ∀ message, loadNote message ∈ added ↔
      ∃ batching failure, task.batching = .value batching ∧
        task.source.load w = .error failure ∧ failure.kind = .unfitValue ∧
        failure.message = message := by
  cases hbatching : task.batching with
  | blank =>
    rw [recognize_of_stops htask (.blankBatchSize hbatching)]
    exact ⟨[], rfl, by simp⟩
  | value batching =>
    cases hload : task.source.load w with
    | error failure =>
      rw [recognize_of_stops htask (.unloaded hbatching hload)]
      refine ⟨loadLines failure, rfl, fun message => ?_⟩
      by_cases hkind : failure.kind = .unfitValue
      · simp [loadLines, hkind, loadNote_injective.eq_iff, eq_comm]
      · simp [loadLines, hkind]
    | ok M =>
      rw [recognize_eq_runTask htask hbatching hload]
      obtain ⟨lines, hlines, hnone⟩ := exists_runTask_log task batching M (w.note (sizeLine M))
      refine ⟨sizeLine M :: lines, ?_, fun message => ?_⟩
      · rw [hlines, World.note, List.append_assoc]
        rfl
      · simp [hnone, loadNote_ne_sizeLine]

/-! ## Lines without a delimiter -/

theorem RecognizeTask.Undelimited.delimiterText {failure : Failure}
    (h : task.Undelimited failure) : task.delimiterText = "" := by
  cases h with
  | empty hdelimiter => rw [RecognizeTask.delimiterText, hdelimiter]; rfl
  | blank hdelimiter => rw [RecognizeTask.delimiterText, hdelimiter]; rfl

theorem RecognizeTask.Undelimited.decodeFailure {failure : Failure}
    (h : task.Undelimited failure) : task.decodeFailure .emptyDelimiter = failure := by
  cases h with
  | empty hdelimiter =>
    rw [RecognizeTask.decodeFailure, hdelimiter, if_neg (by decide)]
  | blank hdelimiter => rw [RecognizeTask.decodeFailure, if_pos hdelimiter]

/-- There is a delimiter, or there is none and that is a failure. -/
theorem exists_undelimited_or (task : RecognizeTask) :
    (∃ failure, task.Undelimited failure) ∨ task.delimiterText ≠ "" := by
  cases hdelimiter : task.delimiter with
  | blank => exact .inl ⟨_, .blank hdelimiter⟩
  | value delimiter =>
    rcases eq_or_ne delimiter "" with rfl | hne
    · exact .inl ⟨_, .empty hdelimiter⟩
    · exact .inr (by rwa [RecognizeTask.delimiterText, hdelimiter])

/-- What is noted before a task is run comes first. -/
theorem RecognizeTask.Ends.of_note {line text : String} {lines : List String}
    {failure : Option Failure} {ending : Ending}
    (h : task.Ends (w.note line) text lines failure ending) :
    task.Ends w text (line :: lines) failure ending := by
  cases h with
  | finished hreports hlog =>
    exact .finished hreports (hlog.trans (List.append_assoc ..))
  | failed hreports hlog =>
    exact .failed hreports (hlog.trans (List.append_assoc ..))

section Running

variable {content : String} {lines : List String} {failure : Failure}

theorem recognize_ends {produced : Produced DecodeError Report}
    (htask : recognizeTask args = .ok task) (hbatching : task.batching = .value batching)
    (hload : task.source.load w = .ok M) (htakes : task.Takes w content) (hcan : task.CanReport w)
    (hlines : Text.lines (String.ofList (Text.unifyLineEnds content.toList)) = lines)
    (hproduced : M.recognize task.delimiterText batching lines = .ok produced) :
    task.Ends w (reportText produced.items) (sizeLine M :: summaryLines produced)
      (produced.failure.map task.decodeFailure) (recognize args w) := by
  subst hlines
  have hends := runTask_ends (w := w.note (sizeLine M)) htakes hcan hproduced
  rw [recognize_eq_runTask htask hbatching hload]
  exact hends.of_note

/-- Without a delimiter the first line that is not empty breaks the task off. -/
theorem recognize_breaksOff (htask : recognizeTask args = .ok task)
    (hbatching : task.batching = .value batching) (hload : task.source.load w = .ok M)
    (htakes : task.Takes w content) (hcan : task.CanReport w)
    (hlines : Text.lines (String.ofList (Text.unifyLineEnds content.toList)) = lines)
    (hundelimited : task.Undelimited failure) (hsome : ∃ line ∈ lines, line ≠ "") :
    task.BreaksOff batching M w lines failure (recognize args w) := by
  have hsize := holdsLine_of_recognizeTask htask hbatching
  rcases all_empty_or_exists_first lines with hall | ⟨n, line, rest, heq, hline⟩
  · obtain ⟨line, hmem, hne⟩ := hsome
    exact absurd (hall line hmem) hne
  have hall : ∀ empty ∈ List.replicate n "", empty = "" := fun _ => List.eq_of_mem_replicate
  have hempty := Word.decode_of_all_empty hall task.delimiterText
  have hbad : Word.decode task.delimiterText line = .error .emptyDelimiter := by
    rw [hundelimited.delimiterText]
    exact Word.decode_undelimited hline
  have hproduced := M.recognize_eq_failed hempty hbad hsize rest
  rw [← heq, List.length_replicate] at hproduced
  refine .intro heq hline hproduced ?_ ?_
  · rw [List.take_replicate, Nat.min_eq_left (batching.complete_le n), List.map_replicate]
  · have hends := recognize_ends htask hbatching hload htakes hcan hlines hproduced
    rw [Option.map_some, hundelimited.decodeFailure] at hends
    exact hends

/-- Lines that are all empty, or that there is a delimiter for, are all reported. -/
theorem recognize_completes (htask : recognizeTask args = .ok task)
    (hbatching : task.batching = .value batching) (hload : task.source.load w = .ok M)
    (htakes : task.Takes w content) (hcan : task.CanReport w)
    (hlines : Text.lines (String.ofList (Text.unifyLineEnds content.toList)) = lines)
    (hdecode : task.delimiterText ≠ "" ∨ ∀ line ∈ lines, line = "") :
    task.Completes batching M w lines (recognize args w) := by
  have hsize := holdsLine_of_recognizeTask htask hbatching
  obtain ⟨word, hword⟩ : ∃ word : String → Word,
      ∀ line ∈ lines, Word.decode task.delimiterText line = .ok (word line) := by
    rcases hdecode with hne | hall
    · obtain ⟨word, hword⟩ := Word.exists_decode hne
      exact ⟨word, fun line _ => hword line⟩
    · exact ⟨fun _ => [], Word.decode_of_all_empty hall task.delimiterText⟩
  exact .intro hword rfl (recognize_ends htask hbatching hload htakes hcan hlines
    (M.recognize_eq_ok_of_mem hword hsize))

end Running

/-! ## The command -/

/-- A call that is refused changes nothing, and a task that stops only adds to the log. The log says
that the automaton could not be loaded if and only if loading it failed because of an unfit value. A
task that does not stop can only fail at a line that is not empty while there is no delimiter, and
then the reports produced before that have been put out. -/
theorem recognize_fails_early_or_at_line (args : List String) (w : World) :
    (∀ exit, recognizeTask args = .error exit → recognize args w = .exited exit w) ∧
    ∀ task, recognizeTask args = .ok task →
      (∀ failure lines, task.Stops w failure lines →
        recognize args w = .failed failure { w with log := w.log ++ lines }) ∧
      (∃ added, (recognize args w).world.log = w.log ++ added ∧
        ∀ message, loadNote message ∈ added ↔ ∃ batching failure,
          task.batching = .value batching ∧ task.source.load w = .error failure ∧
          failure.kind = .unfitValue ∧ failure.message = message) ∧
      ((¬ ∃ failure lines, task.Stops w failure lines) → task.CanOpen w →
        ∃ batching M content lines, task.batching = .value batching ∧
          task.source.load w = .ok M ∧ task.Takes w content ∧
          Text.HasLines (Text.unifyLineEnds content.toList) (lines.map String.toList) ∧
          (∀ failure, task.Undelimited failure → (∃ line ∈ lines, line ≠ "") →
            task.BreaksOff batching M w lines failure (recognize args w)) ∧
          ((¬ ∃ failure, task.Undelimited failure ∧ ∃ line ∈ lines, line ≠ "") →
            task.Completes batching M w lines (recognize args w))) := by
  refine ⟨fun exit hexit => by rw [recognize, hexit], fun task htask => ⟨?_, ?_, ?_⟩⟩
  · intro failure lines hstops
    exact recognize_of_stops htask hstops
  · exact exists_recognize_log htask w
  intro hstops hopen
  obtain ⟨batching, M, content, hbatching, hload, htakes, houtput⟩ :=
    exists_takes_of_not_stops hstops
  have hcan := hopen.canReport houtput
  refine ⟨batching, M, content, _, hbatching, hload, htakes, Text.hasLines_lines content, ?_, ?_⟩
  · intro failure hundelimited hsome
    exact recognize_breaksOff htask hbatching hload htakes hcan rfl hundelimited hsome
  · intro hfine
    refine recognize_completes htask hbatching hload htakes hcan rfl ?_
    rcases exists_undelimited_or task with ⟨failure, hundelimited⟩ | hne
    · refine .inr fun line hmem => ?_
      by_contra hline
      exact hfine ⟨failure, hundelimited, line, hmem, hline⟩
    · exact .inl hne

/-- Three empty lines and one that is not, in batches of two, without a delimiter. -/
theorem recognize_fails_at_fourth_line :
    ∃ (args : List String) (w : World) (task : RecognizeTask), recognizeTask args = .ok task ∧
      task.CanOpen w ∧ (¬ ∃ failure lines, task.Stops w failure lines) ∧
      task.Undelimited (.decode .emptyDelimiter) ∧ task.Takes w "\n\n\n1\n" ∧
      ∃ M lines, (∃ line ∈ lines, line ≠ "") ∧
        task.BreaksOff (.batched 2) M w lines (.decode .emptyDelimiter) (recognize args w) := by
  let args := ["--language", "parity", "--delimiter=", "--output", "sub/out", "--batched",
    "--batch-size", "2"]
  let w : World := ⟨.empty, "\n\n\n1\n", "", []⟩
  have hout : Files.Path.ofText "sub/out" = ⟨0, ["sub", "out"]⟩ := by cbv
  let task : RecognizeTask := ⟨.language (.value "parity"), none,
    some (.value ⟨0, ["sub", "out"]⟩), .value "", .value (.batched 2)⟩
  have htask : recognizeTask args = .ok task := by
    simp only [task, ← hout]
    rfl
  obtain ⟨M, hM⟩ : ∃ M, task.source.load w = .ok M := ⟨_, rfl⟩
  have hopen : task.CanOpen w := by
    rintro path ⟨⟩
    refine ⟨["sub", "out"], _, rfl, ?_⟩
    rintro lines ⟨⟩
  have hstops : ¬ ∃ failure lines, task.Stops w failure lines := by
    rintro ⟨failure, lines, h⟩
    cases h with
    | blankBatchSize h => cases h
    | unloaded _ h => cases hM.symm.trans h
    | blankInput _ _ h => cases h
    | unreadInput _ _ h => cases h
    | blankOutput _ _ _ h => cases h
  have hundelimited : task.Undelimited (.decode .emptyDelimiter) := .empty rfl
  obtain ⟨-, -, hrun⟩ := (recognize_fails_early_or_at_line args w).2 task htask
  obtain ⟨batching, M', content, lines, hbatching, hload, htakes, hlines, hbreaks, -⟩ :=
    hrun hstops hopen
  cases hbatching
  obtain rfl : "\n\n\n1\n" = content := htakes
  have hsome : ∃ line ∈ lines, line ≠ "" := by
    have hcut := hlines.map_trimLineEnd (by decide)
    have hmem : ['1'] ∈ lines.map String.toList := hcut ▸ by decide
    obtain ⟨line, hline, heq⟩ := List.mem_map.1 hmem
    refine ⟨line, hline, ?_⟩
    rintro rfl
    cases heq
  exact ⟨args, w, task, htask, hopen, hstops, hundelimited, rfl, M', lines, hsome,
    hbreaks _ hundelimited hsome⟩

/-- A double dash is no file for the reports: the command fails for want of a directory, though the
language, the lines and the delimiter are there. -/
theorem double_dash_takes_no_reports :
    ∃ task M w', recognizeTask ["--language", "parity", "--output=--"] = .ok task ∧
      task.batching = .value .each ∧ task.source.load ⟨.empty, "1\n", "", []⟩ = .ok M ∧
      task.input = none ∧ task.delimiter = .value "," ∧
      recognize ["--language", "parity", "--output=--"] ⟨.empty, "1\n", "", []⟩ =
        .failed (.blank .directory) w' ∧
      (Failure.blank .directory).kind = .missingAttribute := by
  let task : RecognizeTask := ⟨.language (.value "parity"), none, some .blank, .value ",",
    .value .each⟩
  have htask : recognizeTask ["--language", "parity", "--output=--"] = .ok task := rfl
  obtain ⟨M, hM⟩ : ∃ M, task.source.load ⟨.empty, "1\n", "", []⟩ = .ok M := ⟨_, rfl⟩
  have hstops : task.Stops ⟨.empty, "1\n", "", []⟩ (.blank .directory) [sizeLine M] :=
    .blankOutput rfl hM rfl rfl
  exact ⟨task, M, _, htask, rfl, hM, rfl, rfl, recognize_of_stops htask hstops, rfl⟩

end Command
end WordAutomata
