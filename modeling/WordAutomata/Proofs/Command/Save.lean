import WordAutomata.Command.Save
import WordAutomata.Proofs.Command.Arguments
import WordAutomata.Proofs.Command.Failure
import WordAutomata.Proofs.Storage

/-!
# Recognizing with a saved language

A language that has been saved is read back from its file as the same automaton. So lines are
recognized with the file as they are with the language, whatever the other settings are. A name that
is not resolved saves nothing.
-/
namespace WordAutomata.Command

/-- An automaton has been saved under its name at a path, and nothing else has changed but the
log. -/
structure Saved (name : String) (M : Dfa) (path : Files.Path) (place : Files.Location)
    (w w' : World) : Prop where
  writes : w.tree.Writes path place M.write w'.tree
  input_eq : w'.input = w.input
  output_eq : w'.output = w.output
  log_eq : w'.log = w.log ++ [name ++ ": " ++ sizeText M, "wrote " ++ path.text]

variable {args : List String} {name : String} {M : Dfa} {w w' : World} {path : Files.Path}
  {place : Files.Location}

/-! ## Saving -/

theorem isNamed_name : OptionSpec.IsNamed (helpOption :: SaveSettings.specs) ⟨"--name", true⟩ :=
  ⟨by decide, ⟨_, rfl⟩, by decide⟩

theorem isNamed_output :
    OptionSpec.IsNamed (helpOption :: SaveSettings.specs) ⟨"--output", true⟩ :=
  ⟨by decide, ⟨_, rfl⟩, by decide⟩

/-- The name and the path may stand behind equals signs. -/
theorem saveTask_assign (name out : String) :
    saveTask ["--name=" ++ name, "--output=" ++ out] =
      .ok (.ofAttached name, (Setting.ofAttached out).map .ofText) := by
  have hname : "--name=" ++ name = OptionSpec.assign ⟨"--name", true⟩ name := rfl
  have hout : "--output=" ++ out = OptionSpec.assign ⟨"--output", true⟩ out := rfl
  have hread : readArguments SaveSettings.specs SaveSettings.set ⟨none, none⟩
      ["--name=" ++ name, "--output=" ++ out] =
        .ok ⟨some (.ofAttached name), some ((Setting.ofAttached out).map .ofText)⟩ := by
    rw [readArguments, hname, hout, isAmbiguous_assign isNamed_name,
      isAmbiguous_assign isNamed_output, requests_assign isNamed_name rfl,
      requests_assign isNamed_output rfl]
    rfl
  rw [saveTask, hread]

/-- The automaton of a name that is resolved is saved if the file can be opened. -/
theorem exists_save_eq_finished {tree : Files.Tree}
    (htask : saveTask args = .ok (.value name, .value path))
    (hnamed : Language.named name = .ok M) (hfile : w.tree.emptyFile path = .ok (place, tree)) :
    ∃ w', save args w = .finished w' ∧ Saved name M path place w w' := by
  have hload : loadNamed (.value name) = .ok (name, M) := by
    rw [loadNamed, Setting.require, ok_bind, hnamed]
    rfl
  let w₁ := { w with tree }.note (name ++ ": " ++ sizeText M)
  have hsave : saveAt (w.note (name ++ ": " ++ sizeText M)) (.value path) M =
      .ok ((w₁.fill place M.write).note ("wrote " ++ path.text)) := by
    rw [saveAt, Setting.require, ok_bind, World.writeFile, World.emptyFile, World.note, hfile]
    rfl
  refine ⟨(w₁.fill place M.write).note ("wrote " ++ path.text), ?_, ?_, rfl, rfl, ?_⟩
  · rw [save, htask]
    simp only [hload, hsave]
  · exact (Files.Tree.writes_of_emptyFile hfile).fill M.write
  · exact List.append_assoc ..

theorem save_eq_failed {setting : Setting Files.Path} {failure : Failure} {naming : Setting String}
    (htask : saveTask args = .ok (naming, setting)) (hload : loadNamed naming = .error failure) :
    save args w = .failed failure w := by
  rw [save, htask]
  simp only [hload]

theorem loadNamed_eq_error {e : LanguageError} (hnamed : Language.named name = .error e) :
    loadNamed (.value name) = .error (.language e) := by
  rw [loadNamed, Setting.require, ok_bind, hnamed]
  rfl

/-! ## Recognizing -/

/-- The file, by whatever path, holds the automaton. -/
theorem Saved.load_eq_ok (h : Saved name M path place w w') {file : Files.Path}
    (hfile : w'.tree.locate file = .ok place) :
    (Source.file (.value file)).load w' = .ok M := by
  have hread : w'.tree.read file = .ok M.write :=
    Files.Tree.read_eq_ok_iff.2 ⟨place, hfile, h.writes.file⟩
  rw [Source.load, Setting.require, ok_bind, readFile_eq_ok hread M.return_not_mem_write, ok_bind,
    M.read_write]
  rfl

theorem load_language_eq_ok (hnamed : Language.named name = .ok M) (w : World) :
    (Source.language (.value name)).load w = .ok M := by
  rw [Source.load, Setting.require, ok_bind, hnamed]
  rfl

/-- Lines that can be taken before a language is saved to a new file can be taken afterwards. -/
theorem Saved.takes (h : Saved name M path place w w') (hnew : w.tree.node? place = none)
    {task : RecognizeTask} {content : String} (htakes : task.Takes w content) :
    task.Takes w' content := by
  unfold RecognizeTask.Takes at htakes ⊢
  cases hinput : task.input with
  | none =>
    simp only [hinput] at htakes ⊢
    rw [h.input_eq, htakes]
  | some setting =>
    simp only [hinput] at htakes ⊢
    obtain ⟨lines, rfl, hread⟩ := htakes
    refine ⟨lines, rfl, h.writes.read_other ?_ hread⟩
    intro hlines
    obtain ⟨other, hother, hnode⟩ := Files.Tree.read_eq_ok_iff.1 hread
    rw [hlines, Except.ok.injEq] at hother
    rw [← hother, hnew] at hnode
    cases hnode

variable {args' : List String} {task : RecognizeTask} {source source' : Source}

/-- How a task ends does not depend on where its automaton comes from. -/
theorem RecognizeTask.Ends.of_source {text : String} {lines : List String}
    {failure : Option Failure} {ending : Ending}
    (h : RecognizeTask.Ends { task with source } w text lines failure ending) :
    task.Ends w text lines failure ending := by
  cases h with
  | finished hreports hlog => exact .finished hreports hlog
  | failed hreports hlog => exact .failed hreports hlog

/-- However a task ends, its text is there if it goes to the output. -/
theorem RecognizeTask.Ends.output_eq {text : String} {lines : List String}
    {failure : Option Failure} {ending : Ending} (h : task.Ends w text lines failure ending)
    (houtput : task.output = none) : ending.world.output = w.output ++ text := by
  cases h with
  | finished hreports => exact hreports.output_eq houtput
  | failed hreports => exact hreports.output_eq houtput

/-- Two tasks that differ in where their automaton comes from, but not in the automaton, end
alike. -/
theorem recognize_eq_of_load_eq (htask : recognizeTask args = .ok { task with source })
    (htask' : recognizeTask args' = .ok { task with source := source' })
    (hload : source.load w = source'.load w) : recognize args w = recognize args' w := by
  rw [recognize, recognize, htask, htask']
  simp only [hload]
  rfl

/-- Two tasks that differ in where their automaton comes from put out the same text, note the same
lines and fail alike, also in two worlds that have the automaton and the lines. -/
theorem exists_recognize_ends {batching : Batching} {content : String}
    (htask : recognizeTask args = .ok { task with source })
    (htask' : recognizeTask args' = .ok { task with source := source' })
    (hbatching : task.batching = .value batching)
    (hload : source.load w = .ok M) (hload' : source'.load w' = .ok M)
    (htakes : task.Takes w content) (htakes' : task.Takes w' content)
    (hcan : task.CanReport w) (hcan' : task.CanReport w') :
    ∃ text lines failure, task.Ends w text lines failure (recognize args w) ∧
      task.Ends w' text lines failure (recognize args' w') := by
  have hsize := holdsLine_of_recognizeTask htask hbatching
  obtain ⟨produced, hproduced⟩ := M.exists_recognize_eq_ok task.delimiterText hsize
    (Text.lines (String.ofList (Text.unifyLineEnds content.toList)))
  exact ⟨_, _, _, (recognize_ends htask hbatching hload htakes hcan rfl hproduced).of_source,
    (recognize_ends htask' hbatching hload' htakes' hcan' rfl hproduced).of_source⟩

/-! ## Both commands -/

/-- A name that is resolved is saved to any file that can be opened, and then it makes no difference
whether lines are recognized with that file or with the language: the texts, the lines noted and the
failures are the same, in one world or, if the file is new, in the worlds before and after. A name
that is not resolved is an unfit value and saves nothing, except that a double dash behind the
equals sign is no name at all. -/
theorem saved_language_recognizes_alike (name : String) :
    (Language.Resolves name → ∃ M, Language.named name = .ok M ∧
      ∀ (saveArgs : List String) (w : World) (path : Files.Path) (place : Files.Location)
        (tree : Files.Tree), saveTask saveArgs = .ok (.value name, .value path) →
        w.tree.emptyFile path = .ok (place, tree) →
        ∃ w', save saveArgs w = .finished w' ∧ Saved name M path place w w' ∧
          ∀ (args args' : List String) (task : RecognizeTask) (file : Files.Path),
            w'.tree.locate file = .ok place →
            recognizeTask args = .ok { task with source := .file (.value file) } →
            recognizeTask args' = .ok { task with source := .language (.value name) } →
            recognize args w' = recognize args' w' ∧
            ∀ batching content, w.tree.node? place = none → task.batching = .value batching →
              task.Takes w content → task.CanReport w → task.CanReport w' →
              ∃ text lines failure, task.Ends w' text lines failure (recognize args w') ∧
                task.Ends w text lines failure (recognize args' w)) ∧
    (¬ Language.Resolves name → name ≠ "--" →
      ∃ failure : Failure, failure.kind = .unfitValue ∧
        (∀ args setting w, saveTask args = .ok (.value name, setting) →
          save args w = .failed failure w) ∧
        ∀ out w, save ["--name=" ++ name, "--output=" ++ out] w = .failed failure w) ∧
    (name = "--" → (Failure.blank .name).kind = .unfitType ∧
      ∀ out w, save ["--name=" ++ name, "--output=" ++ out] w = .failed (.blank .name) w) := by
  refine ⟨fun hresolves => ?_, fun hresolves hname => ?_, fun hname => ⟨rfl, fun out w => ?_⟩⟩
  · obtain ⟨M, hnamed⟩ := Language.exists_named_iff.2 hresolves
    refine ⟨M, hnamed, fun saveArgs w path place tree hsave hfile => ?_⟩
    obtain ⟨w', hfinished, hsaved⟩ := exists_save_eq_finished hsave hnamed hfile
    refine ⟨w', hfinished, hsaved, fun args args' task file hlocate htask htask' => ⟨?_, ?_⟩⟩
    · refine recognize_eq_of_load_eq htask htask' ?_
      rw [hsaved.load_eq_ok hlocate, load_language_eq_ok hnamed]
    · intro batching content hnew hbatching htakes hcan hcan'
      exact exists_recognize_ends htask htask' hbatching (hsaved.load_eq_ok hlocate)
        (load_language_eq_ok hnamed w) (hsaved.takes hnew htakes) htakes hcan' hcan
  · cases hnamed : Language.named name with
    | ok M => exact absurd (Language.exists_named_iff.1 ⟨M, hnamed⟩) hresolves
    | error e =>
      have hload := loadNamed_eq_error hnamed
      refine ⟨.language e, kind_of_named_eq_error hnamed, ?_, ?_⟩
      · intro args setting w htask
        exact save_eq_failed htask hload
      · intro out w
        have htask := saveTask_assign name out
        rw [Setting.ofAttached, if_neg hname] at htask
        exact save_eq_failed htask hload
  · have htask := saveTask_assign name out
    rw [Setting.ofAttached, if_pos hname] at htask
    exact save_eq_failed htask rfl

/-- Lines of brackets of two kinds. -/
def bracketWorld : World := ⟨.empty, "(0,)0\n(1,(0,)0\n\n(0\n", "", []⟩

/-- What is reported of the lines if no more than one bracket may be open: the second word is
rejected where the second bracket is opened, the last one at its end. -/
def bracketReports : List Report :=
  [⟨"(0,)0", true, some ⟨.accepted, none, 2⟩⟩,
    ⟨"(1,(0,)0", false, some ⟨.rejected, some .deadTransition, 1⟩⟩,
    ⟨"", true, some ⟨.accepted, none, 0⟩⟩,
    ⟨"(0", false, some ⟨.rejected, some .notAccepting, 1⟩⟩]

/-- Two kinds of brackets, saved to a file in a directory that is made, and brackets of no kind. -/
theorem saved_brackets_recognize_alike :
    ∃ (w' : World) (M : Dfa) (task : RecognizeTask),
      save ["--name=dyck-2-1", "--output=sub/x"] bracketWorld = .finished w' ∧
      Saved "dyck-2-1" M ⟨0, ["sub", "x"]⟩ ["sub", "x"] bracketWorld w' ∧
      recognize ["--automaton", "sub/x"] w' = recognize ["--language", "dyck-2-1"] w' ∧
      (∃ lines failure,
        task.Ends w' (reportText bracketReports) lines failure
          (recognize ["--automaton", "sub/x"] w') ∧
        task.Ends bracketWorld (reportText bracketReports) lines failure
          (recognize ["--language", "dyck-2-1"] bracketWorld)) ∧
      ∃ failure : Failure, failure.kind = .unfitValue ∧
        save ["--name=dyck-0-1", "--output=x"] bracketWorld = .failed failure bracketWorld := by
  have hpath : Files.Path.ofText "sub/x" = ⟨0, ["sub", "x"]⟩ := by cbv
  have hresolves : Language.Resolves "dyck-2-1" := .inr ⟨2, 1, by decide, by decide⟩
  have hno : ¬ Language.Resolves "dyck-0-1" := by
    have hparameters : Language.bracketParameters? "dyck-0-1".toList = some (0, 1) := by decide
    rw [Language.Resolves, hparameters, not_or]
    refine ⟨by decide, ?_⟩
    rintro ⟨kinds, depth, ⟨⟩, hkinds⟩
    exact absurd hkinds (by decide)
  have hsave : saveTask ["--name=dyck-2-1", "--output=sub/x"] =
      .ok (.value "dyck-2-1", .value ⟨0, ["sub", "x"]⟩) := by
    rw [← hpath]
    rfl
  let task : RecognizeTask := ⟨.language (.value "dyck-2-1"), none, none, .value ",", .value .each⟩
  have htask : recognizeTask ["--automaton", "sub/x"] =
      .ok { task with source := .file (.value ⟨0, ["sub", "x"]⟩) } := by
    rw [← hpath]
    rfl
  have htask' : recognizeTask ["--language", "dyck-2-1"] =
      .ok { task with source := .language (.value "dyck-2-1") } := rfl
  obtain ⟨M, -, hsaved⟩ := (saved_language_recognizes_alike "dyck-2-1").1 hresolves
  obtain ⟨w', hfinished, hw', halike⟩ := hsaved _ bracketWorld _ ["sub", "x"] _ hsave rfl
  obtain ⟨hsame, hboth⟩ := halike _ _ task _ hw'.writes.locate htask htask'
  obtain ⟨text, lines, failure, hends', hends⟩ :=
    hboth .each bracketWorld.input rfl rfl rfl trivial trivial
  -- the text is known from the ending in the world without the file
  have hshown : (recognize ["--language", "dyck-2-1"] bracketWorld).world.output =
      reportText bracketReports := by
    decide +kernel
  have htext : text = reportText bracketReports := by
    rw [hends.output_eq rfl] at hshown
    exact String.empty_append.symm.trans hshown
  obtain ⟨refused, hkind, hfailed, -⟩ :=
    (saved_language_recognizes_alike "dyck-0-1").2.1 hno (by decide)
  subst htext
  exact ⟨w', M, task, hfinished, hw', hsame, ⟨lines, failure, hends', hends⟩, refused, hkind,
    hfailed _ _ bracketWorld rfl⟩

/-- A double dash resolves to no language, but the failure is not that its value is unfit. -/
theorem double_dash_is_no_name : ¬ Language.Resolves "--" ∧
    save ["--name=--", "--output", "x"] ⟨.empty, "", "", []⟩ =
      .failed (.blank .name) ⟨.empty, "", "", []⟩ ∧
    (Failure.blank .name).kind = .unfitType := by
  have hparameters : Language.bracketParameters? "--".toList = none := by decide
  have hno : ¬ Language.Resolves "--" := by
    rw [Language.Resolves, hparameters, not_or]
    refine ⟨by decide, ?_⟩
    rintro ⟨kinds, depth, ⟨⟩, -⟩
  exact ⟨hno, rfl, rfl⟩

end WordAutomata.Command
