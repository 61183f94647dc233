import WordAutomata.Proofs.Recognition.Failure

/-!
# What recognition refuses beforehand

A batch size that is not positive is refused before any line is looked at. A missing delimiter is
not: it is missed at the first line that is not empty, and the empty lines before it may have been
reported by then. In every other case either all lines are reported or none is.
-/
namespace WordAutomata

/-- Nothing is reported because something fails, or every line is reported and nothing fails. -/
def AllOrNothing (lines : List String) : Except BatchSizeError (Produced DecodeError Report) → Prop
  | .error _ => True
  | .ok produced => produced.items = [] ∧ produced.failure ≠ none ∨
    produced.items.map Report.line = lines ∧ produced.failure = none

namespace Batching

/-- How many lines are decoded before the first of them is reported. -/
def atOnce : Batching → Nat
  | .each => 1
  | .batched size => size.toNat

/-- A delimiter is missing, and before the line that shows it enough empty lines are reported. -/
structure FailsLate (batching : Batching) (delimiter : String) (lines : List String) : Prop where
  undelimited : delimiter = ""
  holdsLine : batching.HoldsLine
  shown : ∃ line ∈ lines, line ≠ ""
  late : batching.atOnce ≤ (lines.takeWhile (· = "")).length

theorem complete_eq_zero_iff {batching : Batching} (hsize : batching.HoldsLine) (n : Nat) :
    batching.complete n = 0 ↔ n < batching.atOnce := by
  cases batching with
  | each => simp [complete, atOnce]
  | batched size =>
    have hpos := hsize.pos
    rw [complete, atOnce, Nat.mul_eq_zero, Nat.div_eq_zero_iff]
    omega

end Batching

namespace Dfa

variable {delimiter : String} {batching : Batching} {lines : List String}

/-- Only a batch size is refused. -/
theorem recognize_eq_error_iff (M : Dfa) {e : BatchSizeError} :
    M.recognize delimiter batching lines = .error e ↔
      ∃ size < 1, batching = .batched size ∧ e = ⟨size⟩ := by
  cases batching with
  | each => simp [recognize]
  | batched size =>
    rw [recognize]
    constructor
    · intro h
      by_cases hsize : 0 < size.toNat
      · rw [dif_pos hsize] at h
        cases h
      · rw [dif_neg hsize] at h
        cases h
        exact ⟨size, by omega, rfl, rfl⟩
    · rintro ⟨_, hlt, ⟨⟩, rfl⟩
      rw [dif_neg (by omega)]

theorem exists_refused (M : Dfa) (delimiter : String) (hsize : ¬ batching.HoldsLine)
    (lines : List String) : ∃ e, M.recognize delimiter batching lines = .error e := by
  cases batching with
  | each => exact absurd trivial hsize
  | batched size => exact ⟨_, M.recognize_eq_error_iff.2 ⟨size, Int.not_le.1 hsize, rfl, rfl⟩⟩

/-- The reports of lines name them. -/
theorem line_shown_reports (M : Dfa) (batching : Batching) (word : String → Word)
    (lines : List String) :
    (lines.map fun line => batching.shown (M.reportOn line (word line))).map Report.line =
      lines := by
  rw [List.map_map]
  refine (List.map_congr_left fun line _ => ?_).trans (List.map_id lines)
  exact (batching.line_shown _).trans (M.line_reportOn line (word line))

/-- With a delimiter every line is reported. -/
theorem allOrNothing_of_delimiter (M : Dfa) (hd : delimiter ≠ "") (hsize : batching.HoldsLine)
    (lines : List String) : AllOrNothing lines (M.recognize delimiter batching lines) := by
  obtain ⟨word, hword⟩ := Word.exists_decode hd
  rw [M.recognize_eq_ok hword hsize lines]
  exact .inr ⟨M.line_shown_reports batching word lines, rfl⟩

/-- Without a delimiter the reports of the empty lines at the front decide. -/
theorem allOrNothing_undelimited_iff (M : Dfa) (hsize : batching.HoldsLine) (lines : List String) :
    AllOrNothing lines (M.recognize "" batching lines) ↔ ¬ batching.FailsLate "" lines := by
  rcases all_empty_or_exists_first lines with hall | ⟨n, line, rest, rfl, hline⟩
  · rw [M.recognize_eq_ok_of_mem (Word.decode_of_all_empty hall "") hsize]
    refine iff_of_true (.inr ⟨M.line_shown_reports batching _ lines, rfl⟩) fun hlate => ?_
    obtain ⟨line, hmem, hline⟩ := hlate.shown
    exact hline (hall line hmem)
  · have hblank : ∀ l ∈ List.replicate n "", l = "" := fun l hl => (List.mem_replicate.1 hl).2
    have hfront : ((List.replicate n "" ++ line :: rest).takeWhile (· = "")).length = n := by
      rw [List.takeWhile_append_of_pos (by simp)]
      simp [hline]
    have hlate : batching.FailsLate "" (List.replicate n "" ++ line :: rest) ↔
        batching.atOnce ≤ n := by
      constructor
      · intro h
        exact hfront ▸ h.late
      · intro h
        exact ⟨rfl, hsize, ⟨line, by simp, hline⟩, hfront.symm ▸ h⟩
    rw [M.recognize_eq_failed (Word.decode_of_all_empty hblank "") (Word.decode_undelimited hline)
      hsize, hlate, Nat.not_le, ← Batching.complete_eq_zero_iff hsize, List.length_replicate]
    have hreports : ∀ f : String → Report,
        ((List.replicate n "").take (batching.complete n)).map f = [] ↔
          batching.complete n = 0 := by
      intro f
      rw [← List.length_eq_zero_iff, List.length_map, List.length_take, List.length_replicate,
        Nat.min_eq_left (batching.complete_le n)]
    constructor
    · rintro (⟨hnone, -⟩ | ⟨-, hfails⟩)
      · exact (hreports _).1 hnone
      · cases hfails
    · intro hzero
      exact .inl ⟨(hreports _).2 hzero, Option.some_ne_none _⟩

/-- A batch size is refused beforehand, exactly if it is not positive. Otherwise either every line
is reported or something fails and none is, except where a delimiter is missing and enough empty
lines stand before the first one that shows it. Collecting lines for batches does not fail in any
other way. -/
theorem recognition_fails_late_iff (M : Dfa) (delimiter : String) (batching : Batching)
    (lines : List String) :
    (∀ e, M.recognize delimiter batching lines = .error e ↔
      ∃ size < 1, batching = .batched size ∧ e = ⟨size⟩) ∧
    (¬ AllOrNothing lines (M.recognize delimiter batching lines) ↔
      batching.FailsLate delimiter lines) ∧
    ∀ size produced, batching = .batched size → M.recognize delimiter batching lines = .ok produced →
      (NumberedDfa.ofDfa M).collect delimiter size.toNat [] lines = produced.mapFailure .decode := by
  refine ⟨fun e => M.recognize_eq_error_iff, ?_, ?_⟩
  · by_cases hsize : batching.HoldsLine
    · by_cases hd : delimiter = ""
      · subst hd
        rw [M.allOrNothing_undelimited_iff hsize lines, Classical.not_not]
      · refine iff_of_false (fun h => h (M.allOrNothing_of_delimiter hd hsize lines)) ?_
        exact fun hlate => hd hlate.undelimited
    · obtain ⟨e, he⟩ := M.exists_refused delimiter hsize lines
      rw [he]
      exact iff_of_false (fun h => h trivial) fun hlate => hsize hlate.holdsLine
  · intro size produced hbatching h
    subst hbatching
    rw [recognize] at h
    by_cases hsize : 0 < size.toNat
    · rw [dif_pos hsize] at h
      cases h
      exact NumberedDfa.collect_eq_recognizeBatches M delimiter hsize lines [] hsize
    · rw [dif_neg hsize] at h
      cases h

/-- An empty line is reported before the next one shows that the delimiter is missing. -/
theorem empty_line_precedes_refusal : ∃ M, Language.build Language.parity = .ok M ∧
    M.recognize "" .each ["", "1"] = .ok ⟨[M.reportOn "" []], some .emptyDelimiter⟩ ∧
    M.recognize "" (.batched 1) ["", "1"] =
      .ok ⟨[(M.reportOn "" []).summary], some .emptyDelimiter⟩ ∧
    ¬ ∀ (M : Dfa) (delimiter : String) (batching : Batching) (lines : List String),
      AllOrNothing lines (M.recognize delimiter batching lines) := by
  obtain ⟨M, hM⟩ : ∃ M, Language.build Language.parity = .ok M := ⟨_, rfl⟩
  have hblank : ∀ line ∈ [""], Word.decode "" line = .ok [] :=
    Word.decode_of_all_empty (by simp) ""
  have hone : Word.decode "" "1" = .error .emptyDelimiter := Word.decode_undelimited (by decide)
  have hsingle : Batching.each.HoldsLine := trivial
  have hbatch : (Batching.batched 1).HoldsLine := Int.le_refl 1
  have heach : M.recognize "" .each ["", "1"] =
      .ok ⟨[M.reportOn "" []], some .emptyDelimiter⟩ :=
    M.recognize_eq_failed hblank hone hsingle []
  have hbatched : M.recognize "" (.batched 1) ["", "1"] =
      .ok ⟨[(M.reportOn "" []).summary], some .emptyDelimiter⟩ :=
    M.recognize_eq_failed hblank hone hbatch []
  refine ⟨M, hM, heach, hbatched, fun hall => ?_⟩
  have hboth := hall M "" .each ["", "1"]
  rw [heach] at hboth
  rcases hboth with ⟨hnone, -⟩ | ⟨-, hfails⟩
  · cases hnone
  · cases hfails

end Dfa
end WordAutomata
