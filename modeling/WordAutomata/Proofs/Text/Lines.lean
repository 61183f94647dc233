import WordAutomata.Text.Lines

/-!
# Lines of a text

A text that begins with a line and its line feed has that line as its first, and what stands behind
the line feed does not matter for it. A line at the end of a text may go without a line feed. When
the line ends have been unified, nothing but line feeds is left out of the lines.
-/
namespace WordAutomata.Text

theorem rawLines_ended {line : List Char} (h : '\n' ∉ line) (rest : List Char) :
    rawLines (line ++ '\n' :: rest) = (line ++ ['\n']) :: rawLines rest := by
  induction line with
  | nil => rw [List.nil_append, rawLines, if_pos rfl, List.nil_append]
  | cons c line ih =>
    have hc : c ≠ '\n' := fun he => h (he ▸ List.mem_cons_self)
    have hline : '\n' ∉ line := fun hm => h (List.mem_cons_of_mem c hm)
    rw [List.cons_append, rawLines, if_neg hc, ih hline]
    rfl

theorem rawLines_unended {line : List Char} (h : '\n' ∉ line) (hne : line ≠ []) :
    rawLines line = [line] := by
  induction line with
  | nil => exact absurd rfl hne
  | cons c line ih =>
    have hc : c ≠ '\n' := fun he => h (he ▸ List.mem_cons_self)
    have hline : '\n' ∉ line := fun hm => h (List.mem_cons_of_mem c hm)
    rw [rawLines, if_neg hc]
    by_cases hl : line = []
    · rw [hl]
      rfl
    · rw [ih hline hl]

/-- A text is cut into lines: each has a line feed behind it, except that the last one may go
without if it is not empty. -/
inductive HasLines : List Char → List (List Char) → Prop
  | nil : HasLines [] []
  | last {line : List Char} : '\n' ∉ line → line ≠ [] → HasLines line [line]
  | cons {line rest : List Char} {lines : List (List Char)} :
    '\n' ∉ line → HasLines rest lines → HasLines (line ++ '\n' :: rest) (line :: lines)

theorem exists_hasLines (text : List Char) : ∃ lines, HasLines text lines := by
  induction text with
  | nil => exact ⟨[], .nil⟩
  | cons c text ih =>
    obtain ⟨lines, h⟩ := ih
    by_cases hc : c = '\n'
    · rw [hc]
      exact ⟨[] :: lines, .cons List.not_mem_nil h⟩
    · have hcons : ∀ {line : List Char}, '\n' ∉ line → '\n' ∉ c :: line := by
        intro line hline
        rw [List.mem_cons, not_or]
        exact ⟨fun he => hc he.symm, hline⟩
      cases h with
      | nil => exact ⟨[[c]], .last (hcons List.not_mem_nil) (List.cons_ne_nil c [])⟩
      | last hline hne => exact ⟨[c :: text], .last (hcons hline) (List.cons_ne_nil c text)⟩
      | cons hline hrest => exact ⟨_, .cons (hcons hline) hrest⟩

/-! ## Line ends -/

/-- A line that does not end in a carriage return or a line feed is not trimmed. -/
theorem trimLineEnd_eq {line : List Char} (hreturn : line.getLast? ≠ some '\r')
    (hfeed : '\n' ∉ line) : trimLineEnd line = line := by
  have hkeep : line.reverse.dropWhile (fun c => decide (c = '\r') || decide (c = '\n')) =
      line.reverse := by
    cases h : line.reverse with
    | nil => rfl
    | cons c rest =>
      have hc : c ∈ line := List.mem_reverse.1 (h ▸ List.mem_cons_self)
      have hlast : line.getLast? = some c := by rw [← List.head?_reverse, h, List.head?_cons]
      refine List.dropWhile_cons_of_neg ?_
      rw [Bool.or_eq_true, decide_eq_true_eq, decide_eq_true_eq]
      rintro (rfl | rfl)
      · exact hreturn hlast
      · exact hfeed hc
  rw [trimLineEnd, hkeep, List.reverse_reverse]

theorem trimLineEnd_ended (line : List Char) :
    trimLineEnd (line ++ ['\n']) = trimLineEnd line := by
  rw [trimLineEnd, List.reverse_append, List.reverse_singleton, List.singleton_append,
    List.dropWhile_cons_of_pos (by simp), trimLineEnd]

/-- Lines that do not end in carriage returns are found again by their line feeds. -/
theorem HasLines.map_trimLineEnd_of_forall {text : List Char} {lines : List (List Char)}
    (h : HasLines text lines) (hreturn : ∀ line ∈ lines, line.getLast? ≠ some '\r') :
    (rawLines text).map trimLineEnd = lines := by
  induction h with
  | nil => rfl
  | @last line hline hne =>
    rw [rawLines_unended hline hne, List.map_singleton,
      trimLineEnd_eq (hreturn line List.mem_cons_self) hline]
  | cons hline hrest ih =>
    obtain ⟨hfirst, hothers⟩ := List.forall_mem_cons.1 hreturn
    rw [rawLines_ended hline, List.map_cons, trimLineEnd_ended, trimLineEnd_eq hfirst hline,
      ih hothers]

theorem HasLines.mem_of_mem_line {text : List Char} {lines : List (List Char)}
    (h : HasLines text lines) {line : List Char} (hline : line ∈ lines) {c : Char} (hc : c ∈ line) :
    c ∈ text := by
  induction h with
  | nil => cases hline
  | last => exact List.mem_singleton.1 hline ▸ hc
  | cons _ _ ih =>
    rcases List.mem_cons.1 hline with rfl | hline
    · exact List.mem_append_left _ hc
    · exact List.mem_append_right _ (List.mem_cons_of_mem _ (ih hline))

/-- Without carriage returns the lines of a text are what stands between its line feeds. -/
theorem HasLines.map_trimLineEnd {text : List Char} {lines : List (List Char)}
    (h : HasLines text lines) (hreturn : '\r' ∉ text) :
    (rawLines text).map trimLineEnd = lines := by
  refine h.map_trimLineEnd_of_forall fun line hline hlast => ?_
  exact hreturn (h.mem_of_mem_line hline (List.mem_of_getLast? hlast))

/-- Lines with their line feeds in front of a text come before its lines. -/
theorem HasLines.ended_append {rest : List Char} {front lines : List (List Char)}
    (h : HasLines rest lines) (hfront : ∀ line ∈ front, '\n' ∉ line) :
    HasLines (front.flatMap (· ++ ['\n']) ++ rest) (front ++ lines) := by
  induction front with
  | nil => exact h
  | cons line front ih =>
    obtain ⟨hline, hothers⟩ := List.forall_mem_cons.1 hfront
    rw [List.flatMap_cons, List.append_assoc, List.append_assoc, List.singleton_append]
    exact .cons hline (ih hothers)

theorem HasLines.lines_eq {text : String} {cut : List String}
    (h : HasLines text.toList (cut.map String.toList))
    (hreturn : ∀ line ∈ cut, line.toList.getLast? ≠ some '\r') : lines text = cut := by
  have htrim := h.map_trimLineEnd_of_forall (List.forall_mem_map.2 hreturn)
  have hlines : lines text = ((rawLines text.toList).map trimLineEnd).map String.ofList := by
    rw [lines, List.map_map]
    rfl
  rw [hlines, htrim, List.map_map]
  exact (List.map_congr_left fun line _ => String.ofList_toList).trans (List.map_id cut)

theorem not_mem_unifyLineEnds (text : List Char) : '\r' ∉ unifyLineEnds text := by
  fun_induction unifyLineEnds text with
  | case1 => simp
  | case2 rest ih => simpa using ih
  | case3 c rest hpair ih =>
    rw [List.mem_cons, not_or]
    refine ⟨?_, ih⟩
    split
    · decide
    · rename_i hc
      exact fun he => hc he.symm

theorem unifyLineEnds_of_not_mem {text : List Char} (h : '\r' ∉ text) :
    unifyLineEnds text = text := by
  fun_induction unifyLineEnds text with
  | case1 => rfl
  | case2 rest ih => simp at h
  | case3 c rest hpair ih =>
    rw [List.mem_cons, not_or] at h
    rw [if_neg fun he => h.1 he.symm, ih h.2]

/-- The lines of a text whose line ends have been unified. -/
theorem hasLines_lines (content : String) :
    HasLines (unifyLineEnds content.toList)
      ((lines (String.ofList (unifyLineEnds content.toList))).map String.toList) := by
  obtain ⟨cut, h⟩ := exists_hasLines (unifyLineEnds content.toList)
  have hcut := h.map_trimLineEnd (not_mem_unifyLineEnds _)
  have hlines : (lines (String.ofList (unifyLineEnds content.toList))).map String.toList = cut := by
    rw [lines, String.toList_ofList, List.map_map, ← hcut]
    exact List.map_congr_left fun line _ => String.toList_ofList
  rw [hlines]
  exact h

end WordAutomata.Text
