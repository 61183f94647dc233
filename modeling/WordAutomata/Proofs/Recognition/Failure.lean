import WordAutomata.Proofs.Recognition

/-!
# Where recognition breaks off

Lines are reported up to the first one that cannot be decoded. Line by line, all the lines before it
have been reported; in batches, only those of the batches that were full before its own began. With
a delimiter every line can be decoded, and without one the empty lines can.
-/
namespace WordAutomata

/-- What is reported of a line: everything, or acceptance alone in batches. -/
def Batching.shown : Batching → Report → Report
  | .each, r => r
  | .batched _, r => r.summary

theorem Batching.line_shown (batching : Batching) (r : Report) :
    (batching.shown r).line = r.line := by
  cases batching <;> rfl

/-- A batch, if there are any, holds a line. -/
def Batching.HoldsLine : Batching → Prop
  | .each => True
  | .batched size => 1 ≤ size

theorem Batching.HoldsLine.pos {size : Int} (h : (batched size).HoldsLine) : 0 < size.toNat := by
  have hle : 1 ≤ size := h
  omega

/-- How many of some lines have been reported when the line behind them cannot be decoded. -/
def Batching.complete : Batching → Nat → Nat
  | .each, n => n
  | .batched size, n => n / size.toNat * size.toNat

theorem Batching.complete_le (batching : Batching) (n : Nat) : batching.complete n ≤ n := by
  cases batching with
  | each => exact Nat.le_refl n
  | batched size => exact Nat.div_mul_le_self n size.toNat

/-! ## Decoding without a delimiter -/

/-- Empty lines can be decoded with any delimiter and without one. -/
theorem Word.decode_of_all_empty {lines : List String} (h : ∀ line ∈ lines, line = "")
    (delimiter : String) : ∀ line ∈ lines, decode delimiter line = .ok [] := by
  intro line hmem
  rw [h line hmem]
  rfl

theorem Word.decode_undelimited {line : String} (h : line ≠ "") :
    decode "" line = .error .emptyDelimiter := by
  have hline : line.toList ≠ [] := by simpa using h
  rw [decode, decodeNames, if_neg hline, dif_pos (by rfl)]
  rfl

/-- Lines are all empty, or there is a first one that is not. -/
theorem all_empty_or_exists_first (lines : List String) : (∀ line ∈ lines, line = "") ∨
    ∃ (n : Nat) (line : String) (rest : List String),
      lines = List.replicate n "" ++ line :: rest ∧ line ≠ "" := by
  induction lines with
  | nil => exact .inl (List.forall_mem_nil _)
  | cons line lines ih =>
    by_cases hline : line = ""
    · rcases ih with hall | ⟨n, first, rest, rfl, hfirst⟩
      · exact .inl (List.forall_mem_cons.2 ⟨hline, hall⟩)
      · exact .inr ⟨n + 1, first, rest, by rw [hline]; rfl, hfirst⟩
    · exact .inr ⟨0, line, lines, rfl, hline⟩

/-! ## Batches -/

/-- Whole batches at the beginning do not change how the rest is cut. -/
theorem batches_append_of_dvd {α : Type} {size : Nat} (hsize : 0 < size) {items : List α}
    (h : size ∣ items.length) (rest : List α) :
    batches size hsize (items ++ rest) = batches size hsize items ++ batches size hsize rest := by
  obtain ⟨k, hk⟩ := h
  induction k generalizing items with
  | zero =>
    obtain rfl := List.length_eq_zero_iff.1 (hk.trans (Nat.mul_zero size))
    rw [batches_nil, List.nil_append, List.nil_append]
  | succ k ih =>
    rw [Nat.mul_succ] at hk
    have htake : (items.take size).length = size := by
      rw [List.length_take]
      omega
    have hdrop : (items.drop size).length = size * k := by
      rw [List.length_drop]
      omega
    have hitems : items = items.take size ++ items.drop size := (List.take_append_drop _ _).symm
    rw [hitems, List.append_assoc, batches_append hsize htake, batches_append hsize htake,
      ih hdrop, List.cons_append]

theorem take_append_cons {α : Type} {size : Nat} {left : List α} (h : left.length < size)
    (item : α) (rest : List α) :
    (left ++ item :: rest).take size = left ++ item :: rest.take (size - left.length - 1) := by
  rw [List.take_append, List.take_of_length_le (Nat.le_of_lt h), List.take_cons (by omega)]

/-- The batch of an item: the batches before it are full, and it begins with what is left of the
items before that one. -/
theorem batches_append_cons {α : Type} {size : Nat} (hsize : 0 < size) (items : List α) (item : α)
    (rest : List α) : ∃ full left, items = full ++ left ∧
      full.length = items.length / size * size ∧ left.length < size ∧
      batches size hsize (items ++ item :: rest) = batches size hsize full ++
        (left ++ item :: rest).take size :: batches size hsize ((left ++ item :: rest).drop size) := by
  obtain ⟨full, left, rfl, hfull, hlt⟩ : ∃ full left, items = full ++ left ∧
      full.length = items.length / size * size ∧ left.length < size := by
    refine ⟨_, _, (List.take_append_drop (items.length / size * size) items).symm, ?_, ?_⟩
    · rw [List.length_take]
      exact Nat.min_eq_left (Nat.div_mul_le_self _ _)
    · rw [List.length_drop, Nat.mul_comm, ← Nat.mod_eq_sub_mul_div]
      exact Nat.mod_lt _ hsize
  refine ⟨full, left, rfl, hfull, hlt, ?_⟩
  have hdvd : size ∣ full.length := hfull ▸ Nat.dvd_mul_left size _
  have hne : left ++ item :: rest ≠ [] := by simp
  rw [List.append_assoc, batches_append_of_dvd hsize hdvd]
  congr 1
  rw [batches, dif_neg hne]

namespace Dfa

variable {delimiter : String} {word : String → Word} {good : List String} {bad : String}
  {e : DecodeError}

theorem line_reportOn (M : Dfa) (line : String) (w : Word) :
    (M.reportOn line w).line = line := congrArg Report.line (M.summary_reportOn line w)

/-! ## The reports -/

/-- Lines are recognized, to the end or not, if a batch holds a line. -/
theorem exists_recognize_eq_ok (M : Dfa) (delimiter : String) {batching : Batching}
    (hsize : batching.HoldsLine) (lines : List String) :
    ∃ produced, M.recognize delimiter batching lines = .ok produced := by
  cases batching with
  | each => exact ⟨_, rfl⟩
  | batched size =>
    exact ⟨_, by rw [recognize, dif_pos hsize.pos]⟩

/-- Lines that can be decoded are all reported, if a batch holds a line. -/
theorem recognize_eq_ok_of_mem (M : Dfa)
    (hword : ∀ line ∈ good, Word.decode delimiter line = .ok (word line)) {batching : Batching}
    (hsize : batching.HoldsLine) : M.recognize delimiter batching good =
      .ok ⟨good.map fun line => batching.shown (M.reportOn line (word line)), none⟩ := by
  cases batching with
  | each =>
    have h := M.recognizeEach_append hword []
    rw [List.append_nil] at h
    rw [recognize, h]
    simp [recognizeEach, Produced.before, Produced.done, Batching.shown]
  | batched size =>
    have hpos := hsize.pos
    have hcut : (batches size.toNat hpos good).flatten = good := flatten_batches _ hpos good
    rw [← hcut] at hword
    have h := M.recognizeBatches_append hword []
    rw [List.append_nil, hcut] at h
    rw [recognize, dif_pos hpos, h]
    simp [NumberedDfa.recognizeBatches, Produced.before, Produced.done, Batching.shown]

/-- With a delimiter every line is reported. -/
theorem recognize_eq_ok (M : Dfa) (hword : ∀ line, Word.decode delimiter line = .ok (word line))
    {batching : Batching} (hsize : batching.HoldsLine)
    (lines : List String) : M.recognize delimiter batching lines =
      .ok ⟨lines.map fun line => batching.shown (M.reportOn line (word line)), none⟩ :=
  M.recognize_eq_ok_of_mem (fun line _ => hword line) hsize

/-- The batches before that of a line that cannot be decoded are reported. -/
theorem recognizeBatches_eq_failed (M : Dfa) {size : Nat} (hsize : 0 < size)
    (hword : ∀ line ∈ good, Word.decode delimiter line = .ok (word line))
    (hbad : Word.decode delimiter bad = .error e) (rest : List String) :
    (NumberedDfa.ofDfa M).recognizeBatches delimiter (batches size hsize (good ++ bad :: rest)) =
      ⟨((good.take (good.length / size * size)).map fun line =>
        M.reportOn line (word line)).map Report.summary, some e⟩ := by
  obtain ⟨full, left, rfl, hfull, hlt, hbatches⟩ := batches_append_cons hsize good bad rest
  rw [List.forall_mem_append] at hword
  have hcut : (batches size hsize full).flatten = full := flatten_batches size hsize full
  have hdecode : ((left ++ bad :: rest).take size).mapM (Word.decode delimiter) = .error e := by
    rw [take_append_cons hlt]
    exact mapM_eq_error_iff.2 ⟨_, _, _, rfl, fun x hx => ⟨_, hword.2 x hx⟩, hbad⟩
  rw [hbatches, M.recognizeBatches_append (hcut.symm ▸ hword.1), hcut,
    NumberedDfa.recognizeBatches, hdecode, ← hfull, List.take_left]
  simp [Produced.before, Produced.fail]

/-- The lines before one that cannot be decoded are reported, as far as their batches are full. -/
theorem recognize_eq_failed (M : Dfa)
    (hword : ∀ line ∈ good, Word.decode delimiter line = .ok (word line))
    (hbad : Word.decode delimiter bad = .error e) {batching : Batching}
    (hsize : batching.HoldsLine) (rest : List String) :
    M.recognize delimiter batching (good ++ bad :: rest) =
      .ok ⟨(good.take (batching.complete good.length)).map fun line =>
        batching.shown (M.reportOn line (word line)), some e⟩ := by
  cases batching with
  | each =>
    rw [recognize, M.recognizeEach_append hword, recognizeEach, hbad]
    simp [Produced.before, Produced.fail, Batching.shown, Batching.complete]
  | batched size =>
    have hpos := hsize.pos
    rw [recognize, dif_pos hpos, M.recognizeBatches_eq_failed hpos hword hbad]
    simp [Batching.shown, Batching.complete, Function.comp_def]

end Dfa
end WordAutomata
