/-!
# Delimited text

Pieces of text joined by a delimiter, and the way back: a text is cut at the occurrences of the
delimiter, found from the left and not overlapping. Joining the pieces that a text is cut into gives
the text again.
-/
namespace WordAutomata.Text

variable {α : Type} [BEq α]

/-- The text before the first occurrence of the delimiter and the text behind it. -/
def cut? (delimiter : List α) : List α → Option (List α × List α)
  | [] => none
  | c :: rest =>
    if delimiter.isPrefixOf (c :: rest) then some ([], (c :: rest).drop delimiter.length)
    else (cut? delimiter rest).map fun (piece, behind) => (c :: piece, behind)

theorem length_lt_of_cut? {delimiter text piece behind : List α} (hd : delimiter ≠ [])
    (h : cut? delimiter text = some (piece, behind)) : behind.length < text.length := by
  induction text generalizing piece with
  | nil => simp [cut?] at h
  | cons c rest ih =>
    unfold cut? at h
    split at h
    · simp only [Option.some.injEq, Prod.mk.injEq] at h
      have : 0 < delimiter.length := List.length_pos_iff.2 hd
      rw [← h.2, List.length_drop, List.length_cons]
      omega
    · obtain ⟨⟨p, b⟩, hc, he⟩ := Option.map_eq_some_iff.1 h
      simp only [Prod.mk.injEq] at he
      have := ih (he.2 ▸ hc)
      rw [List.length_cons]
      omega

/-- A text is what stands before the delimiter, the delimiter, and what stands behind it. -/
theorem append_of_cut? [LawfulBEq α] {delimiter text piece behind : List α}
    (h : cut? delimiter text = some (piece, behind)) : piece ++ delimiter ++ behind = text := by
  induction text generalizing piece with
  | nil => simp [cut?] at h
  | cons c rest ih =>
    unfold cut? at h
    split at h
    · rename_i hp
      obtain ⟨tail, ht⟩ := List.isPrefixOf_iff_prefix.1 hp
      cases h
      rw [← ht]
      simp
    · obtain ⟨⟨p, b⟩, hc, he⟩ := Option.map_eq_some_iff.1 h
      simp only [Prod.mk.injEq] at he
      rw [← he.1, List.cons_append, List.cons_append, ih (he.2 ▸ hc)]

/-- The pieces between the occurrences of a delimiter that is not empty. -/
def split (delimiter : List α) (hd : delimiter ≠ []) (text : List α) : List (List α) :=
  match _h : cut? delimiter text with
  | none => [text]
  | some (piece, behind) => piece :: split delimiter hd behind
termination_by text.length
decreasing_by exact length_lt_of_cut? hd _h

/-- Pieces with the delimiter between them. -/
def join (delimiter : List α) (pieces : List (List α)) : List α := delimiter.intercalate pieces

theorem split_ne_nil (delimiter : List α) (hd : delimiter ≠ []) (text : List α) :
    split delimiter hd text ≠ [] := by
  unfold split
  split <;> exact List.cons_ne_nil _ _

omit [BEq α] in
theorem join_cons {piece : List α} {pieces : List (List α)} (delimiter : List α)
    (h : pieces ≠ []) :
    join delimiter (piece :: pieces) = piece ++ delimiter ++ join delimiter pieces := by
  cases pieces with
  | nil => exact absurd rfl h
  | cons next rest => simp [join, List.intercalate]

/-- Joining the pieces of a text gives the text. -/
theorem join_split [LawfulBEq α] (delimiter : List α) (hd : delimiter ≠ []) (text : List α) :
    join delimiter (split delimiter hd text) = text := by
  fun_induction split delimiter hd text with
  | case1 text h => simp [join, List.intercalate]
  | case2 text piece behind h ih =>
    rw [join_cons delimiter (split_ne_nil delimiter hd behind), ih, append_of_cut? h]

end WordAutomata.Text
