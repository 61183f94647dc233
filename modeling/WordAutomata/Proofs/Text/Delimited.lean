import Mathlib.Data.List.Infix
import WordAutomata.Text.Delimited

/-!
# Where a text is cut

A text is cut at the first occurrence of the delimiter. A piece with the delimiter behind it may
contain an earlier occurrence, which begins in the piece and ends in the delimiter: `a` and `aa`
joined by `aa` are cut differently. So pieces are told apart exactly if the last one does not
contain the delimiter, and in every other one, followed by the delimiter, there is no occurrence
before the piece ends.
-/
namespace WordAutomata.Text

variable {α : Type} {delimiter text piece behind : List α} {pieces : List (List α)}

/-- A delimiter stands at a position of a text, and at none before it. -/
structure FirstAt (delimiter text : List α) (position : Nat) : Prop where
  stands : delimiter <+: text.drop position
  earlier : ∀ i < position, ¬ delimiter <+: text.drop i

/-- Pieces that are found again when they have been joined by a delimiter. -/
structure Separable (delimiter : List α) (pieces : List (List α)) : Prop where
  last : ∀ piece ∈ pieces.getLast?, ¬ delimiter <:+: piece
  others : ∀ piece ∈ pieces.dropLast, FirstAt delimiter (piece ++ delimiter) piece.length

instance [DecidableEq α] {position : Nat} : Decidable (FirstAt delimiter text position) :=
  decidable_of_iff
    (delimiter <+: text.drop position ∧ ∀ i < position, ¬ delimiter <+: text.drop i)
    ⟨fun h => ⟨h.1, h.2⟩, fun h => ⟨h.stands, h.earlier⟩⟩

instance [DecidableEq α] : Decidable (Separable delimiter pieces) :=
  decidable_of_iff ((∀ piece ∈ pieces.getLast?, ¬ delimiter <:+: piece) ∧
      ∀ piece ∈ pieces.dropLast, FirstAt delimiter (piece ++ delimiter) piece.length)
    ⟨fun h => ⟨h.1, h.2⟩, fun h => ⟨h.last, h.others⟩⟩

theorem firstAt_zero_iff : FirstAt delimiter text 0 ↔ delimiter <+: text :=
  ⟨FirstAt.stands, fun h => ⟨h, fun _ hi => absurd hi (Nat.not_lt_zero _)⟩⟩

theorem firstAt_succ_iff {c : α} {n : Nat} :
    FirstAt delimiter (c :: text) (n + 1) ↔ ¬ delimiter <+: c :: text ∧ FirstAt delimiter text n := by
  constructor
  · intro h
    exact ⟨h.earlier 0 (Nat.succ_pos n), h.stands, fun i hi => h.earlier (i + 1) (by omega)⟩
  · rintro ⟨hnot, h⟩
    refine ⟨h.stands, fun i hi => ?_⟩
    cases i with
    | zero => exact hnot
    | succ i => exact h.earlier i (by omega)

/-- A delimiter that first stands behind a piece is not in the piece. -/
theorem FirstAt.not_infix_of_ne_nil (hd : delimiter ≠ [])
    (h : FirstAt delimiter (piece ++ delimiter) piece.length) : ¬ delimiter <:+: piece := by
  rintro ⟨front, rest, rfl⟩
  have hpos : 0 < delimiter.length := List.length_pos_iff.2 hd
  refine h.earlier front.length ?_ ?_
  · simp only [List.length_append]
    omega
  · rw [List.append_assoc, List.append_assoc, List.drop_left]
    exact List.prefix_append _ _

/-- What stands behind the delimiter does not matter for where a piece ends. -/
theorem prefix_append_delimiter_iff (delimiter piece behind : List α) :
    delimiter <+: piece ++ delimiter ++ behind ↔ delimiter <+: piece ++ delimiter := by
  constructor
  · intro h
    exact List.prefix_of_prefix_length_le h (List.prefix_append _ _) (by simp)
  · exact fun h => h.trans (List.prefix_append _ _)

/-- A delimiter of one character is found behind a piece unless it is in the piece. -/
theorem firstAt_char_iff {c : α} : FirstAt [c] (piece ++ [c]) piece.length ↔ c ∉ piece := by
  constructor
  · intro h hmem
    exact h.not_infix_of_ne_nil (List.cons_ne_nil c []) ((List.singleton_infix_iff c piece).2 hmem)
  · intro h
    refine ⟨by rw [List.drop_left], fun i hi hprefix => h ?_⟩
    rw [List.drop_append_of_le_length (Nat.le_of_lt hi), List.drop_eq_getElem_cons hi,
      List.cons_append, List.cons_prefix_cons] at hprefix
    exact hprefix.1 ▸ List.getElem_mem hi

theorem separable_nil : Separable delimiter ([] : List (List α)) := ⟨by simp, by simp⟩

theorem separable_singleton_iff : Separable delimiter [piece] ↔ ¬ delimiter <:+: piece :=
  ⟨fun h => h.last piece rfl, fun h => ⟨by simpa using h, by simp⟩⟩

theorem separable_cons_iff (hne : pieces ≠ []) : Separable delimiter (piece :: pieces) ↔
    FirstAt delimiter (piece ++ delimiter) piece.length ∧ Separable delimiter pieces := by
  have hlast : (piece :: pieces).getLast? = pieces.getLast? := by
    cases pieces with
    | nil => exact absurd rfl hne
    | cons next rest => exact List.getLast?_cons_cons
  have hothers : (piece :: pieces).dropLast = piece :: pieces.dropLast :=
    List.dropLast_cons_of_ne_nil hne
  constructor
  · rintro ⟨hl, ho⟩
    rw [hlast] at hl
    rw [hothers, List.forall_mem_cons] at ho
    exact ⟨ho.1, hl, ho.2⟩
  · rintro ⟨hfirst, hl, ho⟩
    refine ⟨?_, ?_⟩
    · rwa [hlast]
    · rw [hothers, List.forall_mem_cons]
      exact ⟨hfirst, ho⟩

theorem separable_char_iff {c : α} : Separable [c] pieces ↔ ∀ piece ∈ pieces, c ∉ piece := by
  induction pieces with
  | nil => simp [separable_nil]
  | cons piece rest ih =>
    rw [List.forall_mem_cons]
    by_cases hne : rest = []
    · simp [hne, separable_singleton_iff, List.singleton_infix_iff]
    · rw [separable_cons_iff hne, firstAt_char_iff, ih]

/-! ## One cut -/

section Cut

variable [BEq α] [LawfulBEq α]

theorem cut?_eq_none_iff (hd : delimiter ≠ []) : cut? delimiter text = none ↔ ¬ delimiter <:+: text := by
  induction text with
  | nil => simp [cut?, hd]
  | cons c rest ih =>
    rw [cut?, List.infix_cons_iff, not_or, ← ih]
    by_cases hp : delimiter.isPrefixOf (c :: rest) = true
    · simp [hp, List.isPrefixOf_iff_prefix.1 hp]
    · have hnot : ¬ delimiter <+: c :: rest := fun h => hp (List.isPrefixOf_iff_prefix.2 h)
      simp [hp, hnot]

/-- A text is cut before the first occurrence of the delimiter. -/
theorem cut?_eq_some_iff (hd : delimiter ≠ []) : cut? delimiter text = some (piece, behind) ↔
    text = piece ++ delimiter ++ behind ∧ FirstAt delimiter (piece ++ delimiter) piece.length := by
  induction text generalizing piece with
  | nil => simp [cut?, hd]
  | cons c rest ih =>
    rw [cut?]
    cases piece with
    | nil =>
      split
      · rename_i hp
        obtain ⟨tail, ht⟩ := List.isPrefixOf_iff_prefix.1 hp
        simp [← ht, firstAt_zero_iff, eq_comm]
      · rename_i hp
        constructor
        · simp
        · rintro ⟨ht, -⟩
          exact absurd (List.isPrefixOf_iff_prefix.2 ⟨behind, ht.symm⟩) hp
    | cons b piece =>
      rw [List.length_cons, List.cons_append, List.cons_append, List.cons.injEq, firstAt_succ_iff]
      split
      · rename_i hp
        constructor
        · simp
        · rintro ⟨⟨rfl, rfl⟩, hnot, -⟩
          have hprefix := List.isPrefixOf_iff_prefix.1 hp
          exact absurd ((prefix_append_delimiter_iff delimiter (c :: piece) behind).1 hprefix) hnot
      · rename_i hp
        constructor
        · intro h
          obtain ⟨⟨found, after⟩, hcut, he⟩ := Option.map_eq_some_iff.1 h
          simp only [Prod.mk.injEq, List.cons.injEq] at he
          obtain ⟨⟨rfl, rfl⟩, rfl⟩ := he
          obtain ⟨rfl, hfirst⟩ := ih.1 hcut
          refine ⟨⟨rfl, rfl⟩, fun hprefix => hp ?_, hfirst⟩
          exact List.isPrefixOf_iff_prefix.2
            ((prefix_append_delimiter_iff delimiter (c :: found) after).2 hprefix)
        · rintro ⟨⟨rfl, ht⟩, -, hfirst⟩
          rw [ih.2 ⟨ht, hfirst⟩]
          rfl

end Cut

/-! ## All cuts -/

section Split

variable [BEq α] [LawfulBEq α]

theorem split_eq_cons_iff (hd : delimiter ≠ []) {rest : List (List α)} (hrest : rest ≠ []) :
    split delimiter hd text = piece :: rest ↔
      ∃ behind, text = piece ++ delimiter ++ behind ∧
        FirstAt delimiter (piece ++ delimiter) piece.length ∧
        split delimiter hd behind = rest := by
  rw [split]
  split
  · rename_i h
    constructor
    · intro he
      simp only [List.cons.injEq] at he
      exact absurd he.2.symm hrest
    · rintro ⟨behind, ht, hfirst, -⟩
      rw [(cut?_eq_some_iff hd).2 ⟨ht, hfirst⟩] at h
      cases h
  · rename_i found after h
    obtain ⟨ht, hfirst⟩ := (cut?_eq_some_iff hd).1 h
    constructor
    · intro he
      simp only [List.cons.injEq] at he
      obtain ⟨rfl, he⟩ := he
      exact ⟨after, ht, hfirst, he⟩
    · rintro ⟨behind, ht', hfirst', hsplit⟩
      rw [(cut?_eq_some_iff hd).2 ⟨ht', hfirst'⟩] at h
      cases h
      rw [hsplit]

theorem split_eq_singleton_iff (hd : delimiter ≠ []) :
    split delimiter hd text = [piece] ↔ text = piece ∧ ¬ delimiter <:+: text := by
  rw [← cut?_eq_none_iff hd, split]
  split
  · rename_i h
    simp [h]
  · rename_i found after h
    simp [h, split_ne_nil]

/-- No piece of a text contains the delimiter. -/
theorem not_infix_of_mem_split (hd : delimiter ≠ []) {text : List α} :
    ∀ piece ∈ split delimiter hd text, ¬ delimiter <:+: piece := by
  fun_induction split delimiter hd text with
  | case1 text h => exact List.forall_mem_singleton.2 ((cut?_eq_none_iff hd).1 h)
  | case2 text found after h ih =>
    exact List.forall_mem_cons.2 ⟨((cut?_eq_some_iff hd).1 h).2.not_infix_of_ne_nil hd, ih⟩

/-- Cutting a joined text gives the pieces back exactly if they can be told apart. -/
theorem split_join_eq_iff (hd : delimiter ≠ []) (hne : pieces ≠ []) :
    split delimiter hd (join delimiter pieces) = pieces ↔ Separable delimiter pieces := by
  induction pieces with
  | nil => exact absurd rfl hne
  | cons piece rest ih =>
    cases rest with
    | nil =>
      have hjoin : join delimiter [piece] = piece := List.append_nil piece
      rw [split_eq_singleton_iff, hjoin, separable_singleton_iff]
      exact and_iff_right rfl
    | cons next rest =>
      have hrest : next :: rest ≠ [] := List.cons_ne_nil _ _
      rw [split_eq_cons_iff hd hrest, join_cons delimiter hrest, separable_cons_iff hrest,
        ← ih hrest]
      constructor
      · rintro ⟨behind, ht, hfirst, hsplit⟩
        rw [List.append_cancel_left ht]
        exact ⟨hfirst, hsplit⟩
      · rintro ⟨hfirst, hsplit⟩
        exact ⟨_, rfl, hfirst, hsplit⟩

end Split

end WordAutomata.Text
