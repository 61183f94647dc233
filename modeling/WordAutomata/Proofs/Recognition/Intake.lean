import WordAutomata.Proofs.Recognition.Refusal

/-!
# When lines are taken

Lines come from a source one at a time, and a report is given as soon as it is known. Line by line
every report follows its line; in batches the reports follow the line that fills the batch. So when
a line cannot be decoded, more lines may have been taken than were reported. Without a delimiter
this happens at the first line that is not empty. A batch size that is not positive is refused
before the source is asked for anything.
-/
namespace WordAutomata

/-- What happens while lines are recognized. -/
inductive Event where
  | taken (line : String)
  | given (report : Report)
deriving DecidableEq

def Event.line? : Event → Option String
  | taken line => some line
  | given _ => none

def Event.report? : Event → Option Report
  | taken _ => none
  | given report => some report

/-- Why recognition ends before the lines do. -/
inductive RecognitionFault where
  | batchSize (error : BatchSizeError)
  | collection (fault : CollectionFault)
deriving DecidableEq

namespace Produced

variable {ε : Type}

/-- Lines are taken before anything else happens. -/
def taking (lines : List String) (rest : Produced ε Event) : Produced ε Event :=
  rest.before (lines.map .taken)

/-- Reports are given before anything else happens. -/
def giving (reports : List Report) (rest : Produced ε Event) : Produced ε Event :=
  rest.before (reports.map .given)

def linesTaken (p : Produced ε Event) : List String := p.items.filterMap Event.line?

/-- The reports that were given, without the lines. -/
def reports (p : Produced ε Event) : Produced ε Report :=
  ⟨p.items.filterMap Event.report?, p.failure⟩

end Produced

/-- Each line is reported before the next one is taken. -/
def Dfa.takeEach (M : Dfa) (delimiter : String) : List String → Produced RecognitionFault Event
  | [] => .done
  | line :: rest =>
    .taking [line] <| match Word.decode delimiter line with
      | .error e => .fail (.collection (.decode e))
      | .ok w => .giving [M.reportOn line w] (M.takeEach delimiter rest)

namespace NumberedDfa

/-- A batch is reported, and then something else happens. -/
def giveBatch (T : NumberedDfa) (delimiter : String) (lines : List String)
    (rest : Produced RecognitionFault Event) : Produced RecognitionFault Event :=
  match T.tryReports delimiter lines with
  | .error fault => .fail (.collection fault)
  | .ok reports => .giving reports rest

/-- Lines are taken behind those of a batch that is not full. -/
def takeBatches (T : NumberedDfa) (delimiter : String) (size : Nat) (batch : List String) :
    List String → Produced RecognitionFault Event
  | [] => if batch = [] then .done else T.giveBatch delimiter batch .done
  | line :: rest =>
    .taking [line] <|
      if (batch ++ [line]).length = size then
        T.giveBatch delimiter (batch ++ [line]) (T.takeBatches delimiter size [] rest)
      else T.takeBatches delimiter size (batch ++ [line]) rest

/-- Each batch is taken as a whole before it is reported. -/
def takeWhole (T : NumberedDfa) (delimiter : String) :
    List (List String) → Produced RecognitionFault Event
  | [] => .done
  | lines :: rest => .taking lines (T.giveBatch delimiter lines (T.takeWhole delimiter rest))

end NumberedDfa

/-- All that happens while lines are recognized, from the check of the batch size on. -/
def Dfa.take (M : Dfa) (delimiter : String) (batching : Batching) (lines : List String) :
    Produced RecognitionFault Event :=
  match batching with
  | .each => M.takeEach delimiter lines
  | .batched size =>
    if size < 1 then .fail (.batchSize ⟨size⟩)
    else (NumberedDfa.ofDfa M).takeBatches delimiter size.toNat [] lines

namespace Produced

variable {ε : Type}

@[simp] theorem linesTaken_taking (lines : List String) (p : Produced ε Event) :
    (taking lines p).linesTaken = lines ++ p.linesTaken := by
  show (lines.map Event.taken ++ p.items).filterMap Event.line? = _
  rw [List.filterMap_append, List.filterMap_map]
  exact congrArg (· ++ p.linesTaken) List.filterMap_some

@[simp] theorem linesTaken_giving (given : List Report) (p : Produced ε Event) :
    (giving given p).linesTaken = p.linesTaken := by
  show (given.map Event.given ++ p.items).filterMap Event.line? = _
  rw [List.filterMap_append, List.filterMap_map]
  exact congrArg (· ++ p.linesTaken) (List.filterMap_eq_nil_iff.2 fun _ _ => rfl)

@[simp] theorem reports_taking (lines : List String) (p : Produced ε Event) :
    (taking lines p).reports = p.reports := by
  show Produced.mk ((lines.map Event.taken ++ p.items).filterMap Event.report?) p.failure = _
  have hnone : lines.filterMap (Event.report? ∘ .taken) = [] :=
    List.filterMap_eq_nil_iff.2 fun _ _ => rfl
  rw [List.filterMap_append, List.filterMap_map, hnone]
  rfl

@[simp] theorem reports_giving (given : List Report) (p : Produced ε Event) :
    (giving given p).reports = before given p.reports := by
  show Produced.mk ((given.map Event.given ++ p.items).filterMap Event.report?) p.failure = _
  rw [List.filterMap_append, List.filterMap_map]
  exact congrArg (Produced.mk · p.failure)
    (congrArg (· ++ p.items.filterMap Event.report?) List.filterMap_some)

theorem taking_append (front back : List String) (p : Produced ε Event) :
    taking (front ++ back) p = taking front (taking back p) := by
  simp [taking, before]

theorem taking_nil (p : Produced ε Event) : taking [] p = p := rfl

end Produced

/-! ## Batches are taken as wholes -/

namespace NumberedDfa

variable {delimiter : String} {size : Nat}

/-- Lines taken one at a time are taken batch by batch, whatever can be decoded. -/
theorem taking_takeBatches (T : NumberedDfa) (delimiter : String) (hsize : 0 < size)
    (lines : List String) : ∀ batch : List String, batch.length < size →
      .taking batch (T.takeBatches delimiter size batch lines) =
        T.takeWhole delimiter (batches size hsize (batch ++ lines)) := by
  induction lines with
  | nil =>
    intro batch hlt
    rw [takeBatches, List.append_nil]
    by_cases hne : batch = []
    · rw [if_pos hne, hne, batches_nil]
      rfl
    · rw [if_neg hne, batches_of_length_le hsize hne (Nat.le_of_lt hlt)]
      rfl
  | cons line lines ih =>
    intro batch hlt
    have happend : batch ++ line :: lines = (batch ++ [line]) ++ lines := by simp
    have hlen : (batch ++ [line]).length = batch.length + 1 := by simp
    rw [takeBatches, ← Produced.taking_append, happend]
    by_cases hfull : (batch ++ [line]).length = size
    · rw [if_pos hfull, batches_append hsize hfull, takeWhole]
      have hrest := ih [] hsize
      rw [Produced.taking_nil, List.nil_append] at hrest
      rw [hrest]
    · rw [if_neg hfull]
      exact ih (batch ++ [line]) (by omega)

end NumberedDfa

/-! ## What is reported, and what was taken for it -/

/-- A line cannot be decoded. -/
def RecognitionFault.ofDecode (e : DecodeError) : RecognitionFault := .collection (.decode e)

namespace NumberedDfa

variable {delimiter : String}

theorem giveBatch_ofDfa (M : Dfa) (delimiter : String) (lines : List String)
    (rest : Produced RecognitionFault Event) :
    (ofDfa M).giveBatch delimiter lines rest = match lines.mapM (Word.decode delimiter) with
      | .error e => .fail (.ofDecode e)
      | .ok words => .giving ((ofDfa M).labelBatch lines words) rest := by
  rw [giveBatch, tryReports_ofDfa]
  cases lines.mapM (Word.decode delimiter) with
  | error e => rfl
  | ok words => rfl

theorem reports_takeWhole (M : Dfa) (delimiter : String) (cut : List (List String)) :
    ((ofDfa M).takeWhole delimiter cut).reports =
      ((ofDfa M).recognizeBatches delimiter cut).mapFailure .ofDecode := by
  induction cut with
  | nil => rfl
  | cons lines cut ih =>
    rw [takeWhole, Produced.reports_taking, giveBatch_ofDfa, recognizeBatches]
    cases lines.mapM (Word.decode delimiter) with
    | error e => rfl
    | ok words =>
      simp only [Produced.reports_giving, ih]
      rfl

end NumberedDfa

/-- The first line that is not empty, and the empty ones before it. -/
theorem exists_append_of_findIdx? {lines : List String} {index : Nat}
    (h : lines.findIdx? (· ≠ "") = some index) :
    ∃ blank line rest, lines = blank ++ line :: rest ∧ blank.length = index ∧
      (∀ l ∈ blank, l = "") ∧ line ≠ "" := by
  rw [List.findIdx?_eq_some_iff_getElem] at h
  obtain ⟨hlt, hline, hblank⟩ := h
  refine ⟨lines.take index, lines[index], lines.drop (index + 1), ?_, ?_, ?_, by simpa using hline⟩
  · rw [← List.drop_eq_getElem_cons hlt, List.take_append_drop]
  · rw [List.length_take, Nat.min_eq_left (Nat.le_of_lt hlt)]
  · intro l hmem
    obtain ⟨i, hi, rfl⟩ := List.mem_iff_getElem.1 hmem
    rw [List.length_take] at hi
    rw [List.getElem_take]
    simpa using hblank i (by omega)

namespace Dfa

variable {delimiter : String} {word : String → Word} {good : List String} {bad : String}
  {e : DecodeError} {batching : Batching}

theorem reports_takeEach (M : Dfa) (delimiter : String) (lines : List String) :
    (M.takeEach delimiter lines).reports =
      (M.recognizeEach delimiter lines).mapFailure .ofDecode := by
  induction lines with
  | nil => rfl
  | cons line lines ih =>
    rw [takeEach, Produced.reports_taking, recognizeEach]
    cases Word.decode delimiter line with
    | error e => rfl
    | ok w =>
      simp only [Produced.reports_giving, ih]
      rfl

theorem take_batched (M : Dfa) (delimiter : String) {size : Int}
    (hsize : (Batching.batched size).HoldsLine) (lines : List String) :
    M.take delimiter (.batched size) lines = (NumberedDfa.ofDfa M).takeWhole delimiter
      (batches size.toNat hsize.pos lines) := by
  have hle : 1 ≤ size := hsize
  have h := (NumberedDfa.ofDfa M).taking_takeBatches delimiter hsize.pos lines [] hsize.pos
  rw [Produced.taking_nil, List.nil_append] at h
  rw [take, if_neg (by omega), h]

/-- The reports given are those of recognition, and the failure is its failure. -/
theorem reports_take (M : Dfa) (delimiter : String) (batching : Batching) (lines : List String) :
    (M.take delimiter batching lines).reports =
      match M.recognize delimiter batching lines with
      | .error e => .fail (.batchSize e)
      | .ok produced => produced.mapFailure .ofDecode := by
  cases batching with
  | each => exact M.reports_takeEach delimiter lines
  | batched size =>
    by_cases hsize : 1 ≤ size
    · have hholds : (Batching.batched size).HoldsLine := hsize
      rw [M.take_batched delimiter hholds, NumberedDfa.reports_takeWhole, recognize,
        dif_pos hholds.pos]
    · have hpos : ¬ 0 < size.toNat := by omega
      rw [take, if_pos (by omega), recognize, dif_neg hpos]
      rfl

theorem linesTaken_takeEach_append (M : Dfa)
    (hword : ∀ line ∈ good, Word.decode delimiter line = .ok (word line)) (rest : List String) :
    (M.takeEach delimiter (good ++ rest)).linesTaken =
      good ++ (M.takeEach delimiter rest).linesTaken := by
  induction good with
  | nil => rfl
  | cons line good ih =>
    obtain ⟨hline, hgood⟩ := List.forall_mem_cons.1 hword
    rw [List.cons_append, takeEach, Produced.linesTaken_taking, hline]
    show [line] ++ (Produced.giving _ _).linesTaken = _
    rw [Produced.linesTaken_giving, ih hgood]
    rfl

theorem linesTaken_takeWhole_append (M : Dfa) {cut : List (List String)}
    (hword : ∀ line ∈ cut.flatten, Word.decode delimiter line = .ok (word line))
    (rest : List (List String)) :
    ((NumberedDfa.ofDfa M).takeWhole delimiter (cut ++ rest)).linesTaken =
      cut.flatten ++ ((NumberedDfa.ofDfa M).takeWhole delimiter rest).linesTaken := by
  induction cut with
  | nil => rfl
  | cons lines cut ih =>
    rw [List.flatten_cons, List.forall_mem_append] at hword
    rw [List.cons_append, NumberedDfa.takeWhole, Produced.linesTaken_taking,
      NumberedDfa.giveBatch_ofDfa, mapM_eq_ok_map hword.1]
    show lines ++ (Produced.giving _ _).linesTaken = _
    rw [Produced.linesTaken_giving, ih hword.2, List.flatten_cons, List.append_assoc]

/-- Where every line can be decoded, all lines are taken. -/
theorem linesTaken_take (M : Dfa)
    (hword : ∀ line ∈ good, Word.decode delimiter line = .ok (word line))
    (hsize : batching.HoldsLine) : (M.take delimiter batching good).linesTaken = good := by
  cases batching with
  | each =>
    have h := M.linesTaken_takeEach_append hword []
    rw [List.append_nil] at h
    exact h.trans (List.append_nil good)
  | batched size =>
    have hcut : (batches size.toNat hsize.pos good).flatten = good := flatten_batches _ _ good
    rw [← hcut] at hword
    have h := M.linesTaken_takeWhole_append hword []
    rw [List.append_nil, hcut] at h
    rw [M.take_batched delimiter hsize, h]
    exact List.append_nil good

/-- A line that cannot be decoded ends recognition when it has been taken, and in batches when all
of its batch has been. -/
theorem linesTaken_take_failed (M : Dfa)
    (hword : ∀ line ∈ good, Word.decode delimiter line = .ok (word line))
    (hbad : Word.decode delimiter bad = .error e) (hsize : batching.HoldsLine)
    (rest : List String) : (M.take delimiter batching (good ++ bad :: rest)).linesTaken =
      (good ++ bad :: rest).take (batching.complete good.length + batching.atOnce) := by
  cases batching with
  | each =>
    show (M.takeEach delimiter (good ++ bad :: rest)).linesTaken =
      (good ++ bad :: rest).take (good.length + 1)
    rw [M.linesTaken_takeEach_append hword, takeEach, Produced.linesTaken_taking, hbad,
      List.take_length_add_append]
    rfl
  | batched size =>
    have hpos := hsize.pos
    obtain ⟨full, left, rfl, hfull, hlt, hbatches⟩ := batches_append_cons hpos good bad rest
    rw [List.forall_mem_append] at hword
    have hcut : (batches size.toNat hpos full).flatten = full := flatten_batches _ hpos full
    have hdecode : ((left ++ bad :: rest).take size.toNat).mapM (Word.decode delimiter) =
        .error e := by
      rw [take_append_cons hlt]
      exact mapM_eq_error_iff.2 ⟨_, _, _, rfl, fun x hx => ⟨_, hword.2 x hx⟩, hbad⟩
    rw [M.take_batched delimiter hsize, hbatches, M.linesTaken_takeWhole_append (hcut.symm ▸ hword.1),
      hcut, NumberedDfa.takeWhole, Produced.linesTaken_taking, NumberedDfa.giveBatch_ofDfa, hdecode,
      Batching.complete, Batching.atOnce, ← hfull, List.append_assoc, List.take_length_add_append]
    exact congrArg (full ++ ·) (List.append_nil _)

/-! ## Recognition without a delimiter -/

/-- Lines are recognized without a delimiter as far as the line of an index, which is not empty. Of
the reports on the lines before it a number is given, and the line is taken with those that must be
decoded together with it. -/
structure BreaksOff (M : Dfa) (batching : Batching) (lines : List String) (index given : Nat) :
    Prop where
  within : given ≤ index
  reported : ∃ reports : List Report, reports.length = index ∧
    M.recognize "" batching (lines.take index) = .ok ⟨reports, none⟩ ∧
    M.recognize "" batching lines = .ok ⟨reports.take given, some .emptyDelimiter⟩
  taken : (M.take "" batching lines).linesTaken = lines.take (given + batching.atOnce)

theorem breaksOff (M : Dfa) {lines : List String} {index : Nat}
    (h : lines.findIdx? (· ≠ "") = some index) (hsize : batching.HoldsLine) :
    M.BreaksOff batching lines index (batching.complete index) := by
  obtain ⟨blank, line, rest, rfl, rfl, hblank, hline⟩ := exists_append_of_findIdx? h
  have hword := Word.decode_of_all_empty hblank ""
  have hbad := Word.decode_undelimited hline
  constructor
  case within => exact batching.complete_le blank.length
  case reported =>
    refine ⟨blank.map fun l => batching.shown (M.reportOn l []), List.length_map _, ?_, ?_⟩
    · rw [List.take_left]
      exact M.recognize_eq_ok_of_mem hword hsize
    · rw [M.recognize_eq_failed hword hbad hsize, List.map_take]
  case taken => exact M.linesTaken_take_failed hword hbad hsize rest

/-- Without a delimiter recognition ends at the first line that is not empty, with the message
`empty separator`. Line by line all the lines before it have been reported, and in batches of `b`
only `b * (index / b)` of them, in both modes as they are reported when nothing stands behind them.
If there is no such line, every line is reported as the empty word. A batch size below one is
refused before a line is taken. -/
theorem undelimited_lines_end_recognition (M : Dfa) (lines : List String) :
    (lines.findIdx? (· ≠ "") = none → ∀ batching : Batching, batching.HoldsLine →
      M.recognize "" batching lines =
        .ok ⟨lines.map fun line => batching.shown (M.reportOn line []), none⟩ ∧
      (M.take "" batching lines).linesTaken = lines) ∧
    (∀ index, lines.findIdx? (· ≠ "") = some index →
      M.BreaksOff .each lines index index ∧
      ∀ b : Nat, 1 ≤ b → M.BreaksOff (.batched b) lines index (b * (index / b))) ∧
    (∀ b < 1, M.recognize "" (.batched b) lines = .error ⟨b⟩ ∧
      M.take "" (.batched b) lines = .fail (.batchSize ⟨b⟩)) ∧
    (∀ batching, (M.take "" batching lines).reports =
      match M.recognize "" batching lines with
      | .error e => .fail (.batchSize e)
      | .ok produced => produced.mapFailure .ofDecode) ∧
    DecodeError.emptyDelimiter.message = "empty separator" := by
  refine ⟨?_, ?_, ?_, fun batching => M.reports_take "" batching lines, rfl⟩
  · intro hnone batching hsize
    have hall : ∀ line ∈ lines, line = "" := by simpa using hnone
    have hword := Word.decode_of_all_empty hall ""
    exact ⟨M.recognize_eq_ok_of_mem hword hsize, M.linesTaken_take hword hsize⟩
  · intro index hfirst
    have hsingle : Batching.each.HoldsLine := trivial
    refine ⟨M.breaksOff hfirst hsingle, ?_⟩
    intro b hb
    have hbatch : (Batching.batched b).HoldsLine := by
      show (1 : Int) ≤ b
      omega
    have hcount : (Batching.batched b).complete index = b * (index / b) := by
      rw [Batching.complete, Int.toNat_natCast, Nat.mul_comm]
    exact hcount ▸ M.breaksOff hfirst hbatch
  · intro b hb
    exact ⟨M.recognize_eq_error_iff.2 ⟨b, hb, rfl, rfl⟩, by rw [take, if_pos hb]⟩

/-- Three empty lines stand before `1`: in batches of two, two of them are reported, and all four
lines have been taken by then. -/
theorem blank_lines_precede_one : ∃ M, Language.build Language.parity = .ok M ∧
    ["", "", "", "1", ""].findIdx? (· ≠ "") = some 3 ∧ 1 ≤ 2 ∧
    M.BreaksOff .each ["", "", "", "1", ""] 3 3 ∧
    M.BreaksOff (.batched 2) ["", "", "", "1", ""] 3 2 ∧
    ["", ""].findIdx? (· ≠ "") = none ∧ (Batching.batched 3).HoldsLine ∧
    M.recognize "" (.batched 3) ["", ""] =
      .ok ⟨[(M.reportOn "" []).summary, (M.reportOn "" []).summary], none⟩ ∧
    (0 : Int) < 1 ∧ M.take "" (.batched 0) ["1"] = .fail (.batchSize ⟨0⟩) := by
  obtain ⟨M, hM⟩ : ∃ M, Language.build Language.parity = .ok M := ⟨_, rfl⟩
  have hfirst : ["", "", "", "1", ""].findIdx? (· ≠ "") = some 3 := by decide
  have hnone : ["", ""].findIdx? (· ≠ "") = none := by decide
  have hbatch : (Batching.batched 3).HoldsLine := by
    show (1 : Int) ≤ 3
    decide
  obtain ⟨-, hbreak, -⟩ := M.undelimited_lines_end_recognition ["", "", "", "1", ""]
  obtain ⟨hblank, -⟩ := M.undelimited_lines_end_recognition ["", ""]
  obtain ⟨-, -, hrefused, -⟩ := M.undelimited_lines_end_recognition ["1"]
  exact ⟨M, hM, hfirst, by decide, (hbreak 3 hfirst).1, (hbreak 3 hfirst).2 2 (by decide), hnone,
    hbatch, (hblank hnone _ hbatch).1, by decide, (hrefused 0 (by decide)).2⟩

end Dfa
end WordAutomata
