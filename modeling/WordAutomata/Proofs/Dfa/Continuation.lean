import WordAutomata.Proofs.Dfa.Trail

/-!
# Words are read piece by piece

Of the symbols that have been read nothing but the state counts for the rest of a word. If a word
can be read to its end, what stands behind it is read as from an automaton that begins in the state
reached, only further on. If it cannot, its run has halted for good, whatever stands behind it.
-/
namespace WordAutomata

/-- A configuration with that many more symbols in front of the word. -/
def Configuration.shift (n : Nat) : Configuration → Configuration
  | .running q i => .running q (n + i)
  | .accepted q => .accepted q
  | .rejected reason q i a => .rejected reason q (n + i) a

namespace Dfa

/-- The same automaton, but with a given state for the initial one. -/
def startingAt (M : Dfa) (q : String) (hq : q ∈ M.states) : Dfa :=
  { M with initial := q, initial_mem := hq }

/-- A word cannot be read to its end from a state: its run halts at one of its symbols, in that way
and with that trace. -/
structure HaltsWithin (M : Dfa) (q : String) (i : Nat) (w : Word) (c : Configuration)
    (path : List String) : Prop where
  stopped : ∃ reason s j a, reason ≠ .notAccepting ∧ c = .rejected reason s j (some a)
  ending_append : ∀ v, M.ending q i (w ++ v) = c
  trace_append : ∀ v, M.trace q (w ++ v) = path

variable {M : Dfa} {q r : String} {u : Word}

theorem move_startingAt (hq : q ∈ M.states) : (M.startingAt q hq).move = M.move := rfl

theorem trace_startingAt (hq : q ∈ M.states) (w : Word) : ∀ r : String,
    (M.startingAt q hq).trace r w = M.trace r w := by
  induction w with
  | nil =>
    intro r
    rfl
  | cons a w ih =>
    intro r
    simp only [trace, move_startingAt, ih]

theorem ending_startingAt (hq : q ∈ M.states) (w : Word) : ∀ (r : String) (i : Nat),
    (M.startingAt q hq).ending r i w = M.ending r i w := by
  induction w with
  | nil =>
    intro r i
    rfl
  | cons a w ih =>
    intro r i
    simp only [ending, move_startingAt, ih]

/-- Reading from a later position on shifts the configuration in which a word ends. -/
theorem ending_shift (n : Nat) (w : Word) : ∀ (q : String) (i : Nat),
    M.ending q (n + i) w = (M.ending q i w).shift n := by
  induction w with
  | nil =>
    intro q i
    rw [ending, ending]
    split <;> rfl
  | cons a w ih =>
    intro q i
    rw [ending, ending]
    cases M.move q a with
    | into r => exact ih r (i + 1)
    | _ => rfl

theorem Leads.trace_append (h : M.Leads q u r) (v : Word) :
    M.trace q (u ++ v) = M.trace q u ++ M.trace r v := by
  induction h with
  | nil => rfl
  | cons hs _ ih =>
    simp only [List.cons_append, trace, hs, ih]

theorem Leads.ending_append (h : M.Leads q u r) (v : Word) : ∀ i : Nat,
    M.ending q i (u ++ v) = M.ending r (i + u.length) v := by
  induction h with
  | nil =>
    intro i
    rfl
  | @cons q s r a u hs _ ih =>
    intro i
    simp only [List.cons_append, ending, hs, ih, List.length_cons]
    rw [Nat.add_assoc, Nat.add_comm 1]

/-- A word either leads to a state or halts at one of its symbols. -/
theorem leads_or_haltsWithin (M : Dfa) (u : Word) : ∀ (q : String) (i : Nat),
    (∃ r, M.Leads q u r) ∨ M.HaltsWithin q i u (M.ending q i u) (M.trace q u) := by
  induction u with
  | nil =>
    intro q i
    exact .inl ⟨q, .nil⟩
  | cons a u ih =>
    intro q i
    cases hm : M.move q a with
    | into s =>
      rcases ih s (i + 1) with ⟨r, hr⟩ | h
      · exact .inl ⟨r, .cons hm hr⟩
      · refine .inr ⟨?_, ?_, ?_⟩
        · simpa only [ending, hm] using h.stopped
        · simpa only [List.cons_append, ending, hm] using h.ending_append
        · intro v
          simp only [List.cons_append, trace, hm, h.trace_append v]
    | invalid =>
      refine .inr ⟨⟨.invalidSymbol, q, i, a, by decide, ?_⟩, ?_, ?_⟩
      · simp only [ending, hm]
      · simp only [List.cons_append, ending, hm, implies_true]
      · simp only [List.cons_append, trace, hm, implies_true]
    | dead =>
      refine .inr ⟨⟨.deadTransition, q, i, a, by decide, ?_⟩, ?_, ?_⟩
      · simp only [ending, hm]
      · simp only [List.cons_append, ending, hm, implies_true]
      · simp only [List.cons_append, trace, hm, implies_true]

theorem Leads.mem_states (h : M.Leads q u r) (hq : q ∈ M.states) : r ∈ M.states := by
  induction h with
  | nil => exact hq
  | cons hs _ ih => exact ih (mem_states_of_move hs)

/-- A run that is rejected at a symbol of a word is rejected in the same way, on the same path, with
anything behind the word. A run that comes to the end of a word is continued, with anything behind
the word, as the run of that from the state reached: the positions are shifted by the length of the
word, and the paths are joined at that state. The symbols are scalars, as for every run. -/
theorem run_continues_from_state (M : Dfa) (u : Word) :
    (∃ reason q i a, reason ≠ .notAccepting ∧ M.run u = .rejected reason q i a ∧
      ∀ v, M.run (u ++ v) = .rejected reason q i a ∧ M.accepts (u ++ v) = false ∧
        (Run.start M (u ++ v)).finish.path = (Run.start M u).finish.path) ∨
    ∃ q, ∃ hq : q ∈ M.states,
      (M.run u = .accepted q ∨ M.run u = .rejected .notAccepting q u.length none) ∧
      ∀ v, M.run (u ++ v) = ((M.startingAt q hq).run v).shift u.length ∧
        (Run.start M (u ++ v)).finish.path = (Run.start M u).finish.path ++
          (Run.start (M.startingAt q hq) v).finish.path.tail := by
  rcases M.leads_or_haltsWithin u M.initial 0 with ⟨q, h⟩ | h
  · right
    have hq := h.mem_states M.initial_mem
    refine ⟨q, hq, ?_, fun v => ⟨?_, ?_⟩⟩
    · have hend := h.ending_append [] 0
      rw [List.append_nil, Nat.zero_add, ending] at hend
      rw [run_eq_ending, hend]
      by_cases hf : q ∈ M.finals
      · exact .inl (if_pos hf)
      · exact .inr (if_neg hf)
    · rw [run_eq_ending, run_eq_ending, ending_startingAt, h.ending_append, Nat.zero_add]
      exact ending_shift u.length v q 0
    · simp only [Run.finish_start, h.trace_append, trace_startingAt]
      rfl
  · left
    obtain ⟨reason, q, i, a, hreason, hstopped⟩ := h.stopped
    have hrun : ∀ v, M.run (u ++ v) = .rejected reason q i (some a) := by
      intro v
      rw [run_eq_ending, h.ending_append, hstopped]
    refine ⟨reason, q, i, some a, hreason, ?_, fun v => ⟨hrun v, ?_, ?_⟩⟩
    · rw [run_eq_ending, hstopped]
    · rw [accepts, hrun]
      rfl
    · rw [Run.finish_start, Run.finish_start, h.trace_append]

end Dfa
end WordAutomata
