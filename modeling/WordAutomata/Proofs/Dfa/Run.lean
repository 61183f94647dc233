import WordAutomata.Dfa.Run
import WordAutomata.Proofs.Dfa.Table

/-!
# Runs follow the transition table

A walk is a list of states that the first symbols of a word lead through, as the table has it. A run
visits the longest walk, and its last configuration is determined by where that walk ends. The steps
are taken here by `tryStep`, which can fail at the look-up of the symbol or of the transition;
`Completes` says that stepping until the run has halted ends without such a failure.
-/
namespace WordAutomata

/-- The move that an entry of the table makes. -/
def Move.ofEntry : Option String → Move
  | none => .dead
  | some r => .into r

/-- What a look-up in a step fails with. -/
inductive RunFault where
  | wordEnded (position : Nat)
  | lookup (error : LookupError)
deriving DecidableEq

namespace Run

/-- A step whose look-ups, of the symbol in the word and of the transition, can fail. -/
def tryStep (r : Run) : Except RunFault Run :=
  match r.configuration with
  | .running q i =>
    match r.word[i]? with
    | none => .error (.wordEnded i)
    | some a =>
      if r.automaton.alphabet.isSymbol a then
        match r.automaton.next (.text q) a with
        | .error e => .error (.lookup e)
        | .ok none => .ok { r with configuration := .rejected .deadTransition q i (some a) }
        | .ok (some s) => .ok { r with
            path := r.path ++ [s]
            configuration := settle r.automaton r.word s (i + 1) }
      else .ok { r with configuration := .rejected .invalidSymbol q i (some a) }
  | _ => .ok r

/-- Stepping until the run has halted takes a number of steps, none of which fails. -/
inductive Completes : Run → Nat → Run → Prop where
  | halted {r : Run} (h : r.configuration.isHalted = true) : Completes r 0 r
  | step {r s t : Run} {n : Nat} (h : r.configuration.isHalted = false) (hs : r.tryStep = .ok s)
      (ht : Completes s n t) : Completes r (n + 1) t

/-- What a run becomes whose next symbol makes the given move. -/
def moved (M : Dfa) (w : Word) (path : List String) (q : String) (i : Nat) (a : Datum) :
    Move → Run
  | .invalid => ⟨M, w, path, .rejected .invalidSymbol q i (some a)⟩
  | .dead => ⟨M, w, path, .rejected .deadTransition q i (some a)⟩
  | .into s => ⟨M, w, path ++ [s], settle M w s (i + 1)⟩

end Run

namespace Dfa

/-- The states, the given one first, that the first symbols of a word lead through. -/
structure Walk (M : Dfa) (q : String) (w : Word) (path : List String) : Prop where
  starts : path.head? = some q
  fits : path.length ≤ w.length + 1
  leads : ∀ (i : Nat) (s t : String) (a : Datum), path[i]? = some s → path[i + 1]? = some t →
    w[i]? = some a → M.alphabet.isSymbol a = true ∧ M.next (.text s) a = .ok (some t)

/-- How a word ends that leads to a state with its first `p` symbols and no further. -/
inductive Outcome (M : Dfa) (w : Word) (q : String) (p : Nat) : Configuration → Prop where
  | accepted (hp : p = w.length) (hq : q ∈ M.finals) : Outcome M w q p (.accepted q)
  | notAccepting (hp : p = w.length) (hq : q ∉ M.finals) :
      Outcome M w q p (.rejected .notAccepting q p none)
  | invalidSymbol {a : Datum} (hp : w[p]? = some a) (ha : M.alphabet.isSymbol a = false) :
      Outcome M w q p (.rejected .invalidSymbol q p (some a))
  | deadTransition {a : Datum} (hp : w[p]? = some a) (ha : M.alphabet.isSymbol a = true)
      (hnext : M.next (.text q) a = .ok none) :
      Outcome M w q p (.rejected .deadTransition q p (some a))

/-- The states behind the given one that a word leads through. -/
def trace (M : Dfa) (q : String) : Word → List String
  | [] => []
  | a :: w =>
    match M.move q a with
    | .into r => r :: M.trace r w
    | _ => []

/-- The configuration in which a word ends that is read from a state and a position on. -/
def ending (M : Dfa) (q : String) (i : Nat) : Word → Configuration
  | [] => if q ∈ M.finals then .accepted q else .rejected .notAccepting q i none
  | a :: w =>
    match M.move q a with
    | .invalid => .rejected .invalidSymbol q i (some a)
    | .dead => .rejected .deadTransition q i (some a)
    | .into r => M.ending r (i + 1) w

variable {M : Dfa} {q r : String} {a : Datum}

theorem move_of_isSymbol_eq_false (h : M.alphabet.isSymbol a = false) : M.move q a = .invalid := by
  cases a with
  | text a => simp only [move, if_neg (Alphabet.not_mem_of_isSymbol h)]
  | _ => rfl

theorem isSymbol_of_move (h : M.move q a = .into r) : M.alphabet.isSymbol a = true := by
  cases hs : M.alphabet.isSymbol a with
  | true => rfl
  | false =>
    rw [move_of_isSymbol_eq_false hs] at h
    cases h

/-- In a state a symbol of the alphabet makes the move of its entry. -/
theorem exists_next_of_isSymbol (hq : q ∈ M.states) (h : M.alphabet.isSymbol a = true) :
    ∃ target, M.next (.text q) a = .ok target ∧ M.move q a = .ofEntry target := by
  obtain ⟨b, rfl, hb⟩ := Datum.isIn_iff.1 h
  refine ⟨M.next? q b, next_eq_ok hq hb, ?_⟩
  simp only [move, if_pos hb]
  cases M.next? q b <;> rfl

theorem move_eq_into_iff (hq : q ∈ M.states) : M.move q a = .into r ↔
    M.alphabet.isSymbol a = true ∧ M.next (.text q) a = .ok (some r) := by
  cases h : M.alphabet.isSymbol a with
  | false => simp [move_of_isSymbol_eq_false h]
  | true =>
    obtain ⟨target, hnext, hmove⟩ := exists_next_of_isSymbol hq h
    rw [hnext, hmove]
    cases target <;> simp [Move.ofEntry]

theorem mem_states_of_move {M : Dfa} {q r : String} {a : Datum} (h : M.move q a = .into r) :
    r ∈ M.states := by
  cases a with
  | text a =>
    simp only [move] at h
    split at h
    · split at h
      · rename_i s hs
        cases h
        exact next?_mem_states hs
      · cases h
    · cases h
  | _ => cases h

end Dfa

namespace Run

variable {M : Dfa} {w : Word} {path : List String} {q : String} {i : Nat} {a : Datum}

theorem step_running (ha : w[i]? = some a) :
    step ⟨M, w, path, .running q i⟩ = moved M w path q i a (M.move q a) := by
  simp only [step, ha]
  cases M.move q a <;> rfl

/-- In a state and before the end of the word no look-up fails. -/
theorem tryStep_running (path : List String) (hq : q ∈ M.states) (ha : w[i]? = some a) :
    tryStep ⟨M, w, path, .running q i⟩ = .ok (moved M w path q i a (M.move q a)) := by
  simp only [tryStep, ha]
  cases h : M.alphabet.isSymbol a with
  | false => simp [Dfa.move_of_isSymbol_eq_false h, moved]
  | true =>
    obtain ⟨target, hnext, hmove⟩ := Dfa.exists_next_of_isSymbol hq h
    rw [hnext, hmove]
    cases target <;> rfl

theorem step_of_isHalted {r : Run} (h : r.configuration.isHalted = true) : r.step = r := by
  unfold step
  split
  · rename_i hc
    rw [hc] at h
    cases h
  · rfl

theorem steps_of_isHalted {r : Run} (h : r.configuration.isHalted = true) (n : Nat) :
    steps n r = r := by
  induction n with
  | zero => rfl
  | succ n ih => rw [steps, step_of_isHalted h, ih]

/-- A step that does not fail is the step. -/
theorem step_eq_of_tryStep_eq_ok {r s : Run} (h : r.tryStep = .ok s) : r.step = s := by
  obtain ⟨M, w, path, c⟩ := r
  cases c with
  | accepted q => exact Except.ok.inj h
  | rejected reason q i a => exact Except.ok.inj h
  | running q i =>
    cases ha : w[i]? with
    | none => simp [tryStep, ha] at h
    | some a =>
      rw [step_running ha]
      simp only [tryStep, ha] at h
      by_cases hs : M.alphabet.isSymbol a = true
      · rw [if_pos hs] at h
        by_cases hq : q ∈ M.states
        · obtain ⟨target, hnext, hmove⟩ := Dfa.exists_next_of_isSymbol hq hs
          rw [hnext] at h
          rw [hmove]
          cases target <;> exact Except.ok.inj h
        · obtain ⟨b, rfl, -⟩ := Datum.isIn_iff.1 hs
          simp [Dfa.next, hq] at h
      · rw [if_neg hs] at h
        rw [Dfa.move_of_isSymbol_eq_false (by simpa using hs)]
        exact Except.ok.inj h

/-- A completed run is reached by that many steps, and more steps do not change it. -/
theorem Completes.steps_eq {r t : Run} {n : Nat} (h : Completes r n t) :
    ∀ m, n ≤ m → steps m r = t := by
  induction h with
  | halted h =>
    intro m _
    exact steps_of_isHalted h m
  | step _ hs _ ih =>
    intro m hm
    obtain ⟨m, rfl⟩ : ∃ k, m = k + 1 := ⟨m - 1, by omega⟩
    rw [steps, step_eq_of_tryStep_eq_ok hs]
    exact ih m (by omega)

/-- A run in a state before the rest of a word completes within the length of the rest, and visits
what the rest leads through. -/
theorem completes_settle (M : Dfa) (rest : Word) :
    ∀ (read : Word) (path : List String) (q : String), q ∈ M.states → ∃ n ≤ rest.length,
      Completes ⟨M, read ++ rest, path, settle M (read ++ rest) q read.length⟩ n
        ⟨M, read ++ rest, path ++ M.trace q rest, M.ending q read.length rest⟩ := by
  -- The word stays whole: each step moves one symbol from the rest to what is read.
  induction rest with
  | nil =>
    intro read path q _
    have hc : settle M (read ++ []) q read.length = M.ending q read.length [] := by
      simp [settle, Dfa.ending]
    have hh : (M.ending q read.length []).isHalted = true := by
      simp only [Dfa.ending]
      split <;> rfl
    refine ⟨0, Nat.le_refl _, ?_⟩
    rw [hc, Dfa.trace, List.append_nil path]
    exact .halted hh
  | cons a rest ih =>
    intro read path q hq
    have hc : settle M (read ++ a :: rest) q read.length = .running q read.length := by
      simp [settle]
    have ha : (read ++ a :: rest)[read.length]? = some a := by simp
    have hs := tryStep_running path hq ha
    rw [hc]
    cases hm : M.move q a with
    | invalid =>
      rw [hm] at hs
      simp only [Dfa.trace, Dfa.ending, hm, List.append_nil]
      exact ⟨1, by simp, .step rfl hs (.halted rfl)⟩
    | dead =>
      rw [hm] at hs
      simp only [Dfa.trace, Dfa.ending, hm, List.append_nil]
      exact ⟨1, by simp, .step rfl hs (.halted rfl)⟩
    | into r =>
      rw [hm] at hs
      obtain ⟨n, hn, hrest⟩ := ih (read ++ [a]) (path ++ [r]) r (Dfa.mem_states_of_move hm)
      simp only [Dfa.trace, Dfa.ending, hm]
      simp only [List.append_assoc, List.cons_append, List.nil_append, List.length_append,
        List.length_singleton] at hrest
      exact ⟨n + 1, by simpa using hn, .step rfl hs hrest⟩

/-- Every run completes, and its end is described by what its word leads through. -/
theorem completes_start (M : Dfa) (w : Word) : ∃ n ≤ w.length, Completes (start M w) n
    ⟨M, w, M.initial :: M.trace M.initial w, M.ending M.initial 0 w⟩ :=
  completes_settle M w [] [M.initial] M.initial M.initial_mem

theorem finish_start (M : Dfa) (w : Word) : (start M w).finish =
    ⟨M, w, M.initial :: M.trace M.initial w, M.ending M.initial 0 w⟩ := by
  obtain ⟨n, hn, h⟩ := completes_start M w
  exact h.steps_eq _ hn

end Run

namespace Dfa

theorem run_eq_ending (M : Dfa) (w : Word) : M.run w = M.ending M.initial 0 w :=
  congrArg Run.configuration (Run.finish_start M w)

theorem Walk.singleton (M : Dfa) (q : String) (w : Word) : M.Walk q w [q] :=
  ⟨rfl, by simp, by simp⟩

theorem Walk.cons {M : Dfa} {q r : String} {a : Datum} {w : Word} {path : List String}
    (ha : M.alphabet.isSymbol a = true) (hr : M.next (.text q) a = .ok (some r))
    (h : M.Walk r w (r :: path)) : M.Walk q (a :: w) (q :: r :: path) := by
  refine ⟨rfl, by simpa using h.fits, ?_⟩
  intro i s t b hs ht hb
  cases i with
  | zero =>
    cases hs
    cases ht
    cases hb
    exact ⟨ha, hr⟩
  | succ i => exact h.leads i s t b hs ht hb

theorem Walk.tail {M : Dfa} {q r : String} {a : Datum} {w : Word} {path : List String}
    (h : M.Walk q (a :: w) (q :: r :: path)) : M.Walk r w (r :: path) :=
  ⟨rfl, by simpa using h.fits, fun i s t b hs ht hb => h.leads (i + 1) s t b hs ht hb⟩

/-- What a word leads through is a walk. -/
theorem walk_trace (M : Dfa) (w : Word) :
    ∀ q, q ∈ M.states → M.Walk q w (q :: M.trace q w) := by
  induction w with
  | nil =>
    intro q _
    exact .singleton M q []
  | cons a w ih =>
    intro q hq
    cases hm : M.move q a with
    | into r =>
      obtain ⟨ha, hr⟩ := (move_eq_into_iff hq).1 hm
      simp only [trace, hm]
      exact .cons ha hr (ih r (mem_states_of_move hm))
    | _ =>
      simp only [trace, hm]
      exact .singleton M q _

/-- No walk leads further or elsewhere. -/
theorem Walk.prefix_trace {M : Dfa} {w : Word} :
    ∀ {q : String} {path : List String}, q ∈ M.states → M.Walk q w path →
      path <+: q :: M.trace q w := by
  induction w with
  | nil =>
    intro q path _ h
    have hlen := h.fits
    match path with
    | [s] => exact Option.some.inj h.starts ▸ List.prefix_refl _
  | cons a w ih =>
    intro q path hq h
    match path with
    | [s] => exact Option.some.inj h.starts ▸ List.prefix_append [s] _
    | s :: r :: rest =>
      obtain rfl := Option.some.inj h.starts
      have hm := (move_eq_into_iff hq).2 (h.leads 0 s r a rfl rfl rfl)
      simp only [trace, hm]
      exact List.prefix_cons_inj s |>.2 (ih (mem_states_of_move hm) h.tail)

/-- The ending of a word is decided by the state and the position at which its walk ends. -/
theorem outcome_ending (M : Dfa) (rest : Word) :
    ∀ (read : Word) (q : String), q ∈ M.states → ∃ s ∈ M.states,
      (q :: M.trace q rest).getLast? = some s ∧
      M.Outcome (read ++ rest) s (read.length + (M.trace q rest).length)
        (M.ending q read.length rest) := by
  induction rest with
  | nil =>
    intro read q hq
    refine ⟨q, hq, rfl, ?_⟩
    by_cases hf : q ∈ M.finals
    · simp only [ending, if_pos hf]
      exact .accepted (by simp [trace]) hf
    · simp only [ending, if_neg hf]
      exact .notAccepting (by simp [trace]) hf
  | cons a rest ih =>
    intro read q hq
    have ha : (read ++ a :: rest)[read.length]? = some a := by simp
    cases hs : M.alphabet.isSymbol a with
    | false =>
      simp only [trace, ending, move_of_isSymbol_eq_false hs]
      exact ⟨q, hq, rfl, .invalidSymbol ha hs⟩
    | true =>
      obtain ⟨target, hnext, hmove⟩ := exists_next_of_isSymbol hq hs
      cases target with
      | none =>
        simp only [trace, ending, hmove, Move.ofEntry]
        exact ⟨q, hq, rfl, .deadTransition ha hs hnext⟩
      | some r =>
        simp only [trace, ending, hmove, Move.ofEntry]
        obtain ⟨s, hs', hlast, hout⟩ := ih (read ++ [a]) r (mem_states_of_move hmove)
        simp only [List.append_assoc, List.cons_append, List.nil_append, List.length_append,
          List.length_singleton] at hout
        refine ⟨s, hs', by simpa using hlast, ?_⟩
        rw [List.length_cons, ← Nat.add_assoc, Nat.add_right_comm]
        exact hout

theorem outcome_run (M : Dfa) (w : Word) : ∃ s ∈ M.states,
    (M.initial :: M.trace M.initial w).getLast? = some s ∧
    M.Outcome w s (M.trace M.initial w).length (M.run w) := by
  have h := outcome_ending M w [] M.initial M.initial_mem
  rw [List.length_nil, Nat.zero_add, ← run_eq_ending] at h
  exact h

/-- A word is accepted when it is read to its end and a final state is reached. -/
theorem Outcome.isAccepted_iff {M : Dfa} {w : Word} {q : String} {p : Nat} {c : Configuration}
    (h : M.Outcome w q p c) : c.isAccepted = true ↔ p = w.length ∧ q ∈ M.finals := by
  cases h with
  | accepted hp hq => simp [Configuration.isAccepted, hp, hq]
  | notAccepting hp hq => simp [Configuration.isAccepted, hq]
  | invalidSymbol hp ha =>
    have hlt := (List.getElem?_eq_some_iff.1 hp).1
    simp [Configuration.isAccepted]
    omega
  | deadTransition hp ha hnext =>
    have hlt := (List.getElem?_eq_some_iff.1 hp).1
    simp [Configuration.isAccepted]
    omega

/-- A run completes without a failing look-up, its path is the longest walk that the word makes from
the initial state, and it ends as the last state and the length of that walk decide. Symbols are
names or other scalars; a list or a record among them is no more than another invalid symbol. -/
theorem run_follows_longest_walk (M : Dfa) (w : Word) :
    ∃ (path : List String) (p : Nat) (q : String),
      M.Walk M.initial w path ∧ (∀ other, M.Walk M.initial w other → other <+: path) ∧
      path.length = p + 1 ∧ path.getLast? = some q ∧
      (∃ n ≤ w.length, (Run.start M w).Completes n (Run.start M w).finish) ∧
      (Run.start M w).finish.path = path ∧ M.Outcome w q p (M.run w) ∧
      (M.accepts w = true ↔ p = w.length ∧ q ∈ M.finals) := by
  obtain ⟨q, -, hlast, hout⟩ := M.outcome_run w
  refine ⟨M.initial :: M.trace M.initial w, (M.trace M.initial w).length, q,
    walk_trace M w _ M.initial_mem, fun _ => Walk.prefix_trace M.initial_mem, rfl, hlast, ?_, ?_,
    hout, hout.isAccepted_iff⟩
  · rw [Run.finish_start]
    exact Run.completes_start M w
  · rw [Run.finish_start]

end Dfa
end WordAutomata
