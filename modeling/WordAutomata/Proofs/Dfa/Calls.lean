import WordAutomata.Proofs.Dfa.Run

/-!
# Runs that are stepped and finished by turns

A caller may take single steps of a run and ask for its end, in any order and as often as it likes.
`OnCourse` says how far such a run has come, in terms of its path and of the number of steps taken
so far that had an effect. One step keeps it, hence so do all calls, and none of them fails.
-/
namespace WordAutomata
namespace Run

/-- What can be asked of a run: one more step, or all steps to its end. -/
inductive Call where
  | step
  | finish
deriving DecidableEq, Repr

def call (r : Run) : Call → Run
  | .step => r.step
  | .finish => r.finish

/-- Calls that turn one run into another without a failing look-up. A step counts only if the run
had not halted before it. -/
inductive Serves : Run → List Call → Nat → Run → Prop where
  | done {r : Run} : Serves r [] 0 r
  | idle {r t : Run} {calls : List Call} {n : Nat} (h : r.configuration.isHalted = true)
      (ht : Serves r calls n t) : Serves r (.step :: calls) n t
  | step {r s t : Run} {calls : List Call} {n : Nat} (h : r.configuration.isHalted = false)
      (hs : r.tryStep = .ok s) (ht : Serves s calls n t) : Serves r (.step :: calls) (n + 1) t
  | finish {r s t : Run} {calls : List Call} {m n : Nat} (hs : r.Completes m s)
      (ht : Serves s calls n t) : Serves r (.finish :: calls) (m + n) t

/-- The configuration of a run that has visited a path in a number of steps. Reading the whole word
takes a step for every state behind the first, and being stopped takes one more. -/
inductive Stands (M : Dfa) (w : Word) (path : List String) : Nat → Configuration → Prop where
  | running {q : String} {i : Nat} (hi : i < w.length) (hlen : path.length = i + 1)
      (hlast : path.getLast? = some q) : Stands M w path i (.running q i)
  | accepted {q : String} (hlen : path.length = w.length + 1) (hlast : path.getLast? = some q)
      (hq : q ∈ M.finals) : Stands M w path w.length (.accepted q)
  | notAccepting {q : String} (hlen : path.length = w.length + 1)
      (hlast : path.getLast? = some q) (hq : q ∉ M.finals) :
      Stands M w path w.length (.rejected .notAccepting q w.length none)
  | stopped {reason : RejectionReason} {q : String} {i : Nat} {a : Datum}
      (hreason : reason ≠ .notAccepting) (ha : w[i]? = some a) (hlen : path.length = i + 1)
      (hlast : path.getLast? = some q) :
      Stands M w path (i + 1) (.rejected reason q i (some a))

/-- A run of a word that has come this far in a number of steps. -/
structure OnCourse (M : Dfa) (w : Word) (n : Nat) (r : Run) : Prop where
  automaton : r.automaton = M
  word : r.word = w
  walk : M.Walk M.initial w r.path
  stands : Stands M w r.path n r.configuration

variable {M : Dfa} {w : Word} {path : List String} {q s : String} {i n : Nat} {a : Datum}

theorem Stands.le_length {c : Configuration} (h : Stands M w path n c) : n ≤ w.length := by
  cases h with
  | running hi => exact Nat.le_of_lt hi
  | stopped _ ha => exact (List.getElem?_eq_some_iff.1 ha).1
  | _ => exact Nat.le_refl _

/-- A run that has not halted has a symbol left to read. -/
theorem Stands.lt_length {c : Configuration} (h : Stands M w path n c) (hc : c.isHalted = false) :
    n < w.length := by
  cases h with
  | running hi => exact hi
  | _ => cases hc

theorem stands_settle (hi : i ≤ w.length) (hlen : path.length = i + 1)
    (hlast : path.getLast? = some q) : Stands M w path i (settle M w q i) := by
  by_cases hlt : i < w.length
  · rw [settle, if_pos hlt]
    exact .running hlt hlen hlast
  · have he : i = w.length := by omega
    subst he
    rw [settle, if_neg hlt]
    by_cases hq : q ∈ M.finals
    · rw [if_pos hq]
      exact .accepted hlen hlast hq
    · rw [if_neg hq]
      exact .notAccepting hlen hlast hq

end Run

namespace Dfa

variable {M : Dfa} {w : Word} {path : List String} {q s t : String} {i : Nat} {a : Datum}

/-- A walk that starts in a state visits states only. -/
theorem Walk.mem_states (h : M.Walk q w path) (hq : q ∈ M.states) :
    ∀ (i : Nat) (s : String), path[i]? = some s → s ∈ M.states := by
  intro i
  induction i with
  | zero =>
    intro s hs
    have hhead := h.starts
    rw [List.head?_eq_getElem?, hs] at hhead
    exact Option.some.inj hhead ▸ hq
  | succ i ih =>
    intro s hs
    have hlt := (List.getElem?_eq_some_iff.1 hs).1
    have hfits := h.fits
    have hprev : path[i]? = some path[i] := List.getElem?_eq_getElem (by omega)
    have hsymbol : w[i]? = some w[i] := List.getElem?_eq_getElem (by omega)
    have hmove := (move_eq_into_iff (ih _ hprev)).2 (h.leads i _ s _ hprev hs hsymbol)
    exact mem_states_of_move hmove

theorem Walk.snoc (h : M.Walk q w path) (hlen : path.length = i + 1)
    (hlast : path.getLast? = some s) (ha : w[i]? = some a) (hs : M.alphabet.isSymbol a = true)
    (ht : M.next (.text s) a = .ok (some t)) : M.Walk q w (path ++ [t]) := by
  have hi := (List.getElem?_eq_some_iff.1 ha).1
  refine ⟨?_, by rw [List.length_append, hlen, List.length_singleton]; omega, ?_⟩
  · rw [List.head?_append, h.starts]
    rfl
  · intro j s' t' b hs' ht' hb
    by_cases hj : j + 1 < path.length
    · rw [List.getElem?_append_left (by omega)] at hs'
      rw [List.getElem?_append_left hj] at ht'
      exact h.leads j s' t' b hs' ht' hb
    · have hlt := (List.getElem?_eq_some_iff.1 ht').1
      rw [List.length_append, List.length_singleton] at hlt
      obtain rfl : j = i := by omega
      rw [List.getElem?_append_left (by omega)] at hs'
      rw [List.getElem?_append_right (by omega), hlen, Nat.sub_self] at ht'
      rw [List.getLast?_eq_getElem?, hlen, Nat.add_sub_cancel, hs'] at hlast
      cases hlast
      cases ht'
      rw [ha] at hb
      cases hb
      exact ⟨hs, ht⟩

end Dfa

namespace Run

variable {M : Dfa} {w : Word} {n m : Nat} {r s t : Run} {calls : List Call}

theorem onCourse_start (M : Dfa) (w : Word) : OnCourse M w 0 (start M w) where
  automaton := rfl
  word := rfl
  walk := .singleton M M.initial w
  stands := stands_settle (Nat.zero_le _) rfl rfl

/-- One step: no look-up fails, and the run is one step further on its course. -/
theorem OnCourse.tryStep_eq (h : OnCourse M w n r) (hr : r.configuration.isHalted = false) :
    r.tryStep = .ok r.step ∧ OnCourse M w (n + 1) r.step := by
  obtain ⟨N, v, path, c⟩ := r
  obtain ⟨hM, hw, hwalk, hstands⟩ := h
  dsimp only at hM hw hwalk hstands
  subst hM hw
  cases hstands with
  | @running q i hi hlen hlast =>
    have hq : q ∈ N.states := by
      rw [List.getLast?_eq_getElem?] at hlast
      exact hwalk.mem_states N.initial_mem _ q hlast
    have ha : v[n]? = some v[n] := List.getElem?_eq_getElem hi
    rw [tryStep_running path hq ha, step_running ha]
    refine ⟨rfl, ?_⟩
    cases hm : N.move q v[n] with
    | invalid => exact ⟨rfl, rfl, hwalk, .stopped (by decide) ha hlen hlast⟩
    | dead => exact ⟨rfl, rfl, hwalk, .stopped (by decide) ha hlen hlast⟩
    | into s =>
      obtain ⟨hs, hnext⟩ := (Dfa.move_eq_into_iff hq).1 hm
      refine ⟨rfl, rfl, hwalk.snoc hlen hlast ha hs hnext, stands_settle hi ?_ (by simp [moved])⟩
      simp only [moved, List.length_append, List.length_singleton, hlen]
  | _ => cases hr

theorem OnCourse.completes (h : OnCourse M w n r) (hm : r.Completes m s) :
    OnCourse M w (n + m) s := by
  induction hm generalizing n with
  | halted => exact h
  | @step r s t m hr hs _ ih =>
    have hstep := h.tryStep_eq hr
    rw [hs] at hstep
    cases hstep.1
    rw [Nat.add_comm m 1, ← Nat.add_assoc]
    exact ih hstep.2

theorem OnCourse.finish_eq (h : OnCourse M w n r) (hm : r.Completes m s) : r.finish = s := by
  have hle := (h.completes hm).stands.le_length
  exact hm.steps_eq _ (by rw [h.word]; omega)

/-- Stepping ends: what is left of the word gets shorter with every step that has an effect. -/
theorem OnCourse.exists_completes (left : Nat) : ∀ {n : Nat} {r : Run}, w.length - n = left →
    OnCourse M w n r → ∃ m s, r.Completes m s := by
  induction left with
  | zero =>
    intro n r hleft h
    cases hr : r.configuration.isHalted with
    | true => exact ⟨0, r, .halted hr⟩
    | false =>
      have hlt := h.stands.lt_length hr
      omega
  | succ left ih =>
    intro n r hleft h
    cases hr : r.configuration.isHalted with
    | true => exact ⟨0, r, .halted hr⟩
    | false =>
      obtain ⟨hstep, hnext⟩ := h.tryStep_eq hr
      obtain ⟨m, s, hm⟩ := ih (by omega) hnext
      exact ⟨m + 1, s, .step hr hstep hm⟩

theorem OnCourse.completes_finish (h : OnCourse M w n r) : ∃ m, r.Completes m r.finish := by
  obtain ⟨m, s, hm⟩ := OnCourse.exists_completes _ rfl h
  rw [h.finish_eq hm]
  exact ⟨m, hm⟩

theorem finish_of_isHalted (h : r.configuration.isHalted = true) : r.finish = r :=
  steps_of_isHalted h _

theorem call_of_isHalted (h : r.configuration.isHalted = true) (c : Call) : r.call c = r := by
  cases c with
  | step => exact step_of_isHalted h
  | finish => exact finish_of_isHalted h

theorem isHalted_of_completes (h : Completes r m s) : s.configuration.isHalted = true := by
  induction h with
  | halted h => exact h
  | step _ _ _ ih => exact ih

/-- A call changes nothing about where the run ends. -/
theorem OnCourse.finish_call (h : OnCourse M w n r) (c : Call) : (r.call c).finish = r.finish := by
  cases c with
  | finish =>
    obtain ⟨m, hm⟩ := h.completes_finish
    exact finish_of_isHalted (isHalted_of_completes hm)
  | step =>
    cases hr : r.configuration.isHalted with
    | true => rw [call_of_isHalted hr]
    | false =>
      obtain ⟨hstep, hnext⟩ := h.tryStep_eq hr
      obtain ⟨m, hm⟩ := hnext.completes_finish
      exact (h.finish_eq (.step hr hstep hm)).symm

/-- Every call is served, and the run is on its course after it. -/
theorem OnCourse.serves_call (h : OnCourse M w n r) (c : Call) :
    ∃ m, OnCourse M w (n + m) (r.call c) ∧ ∀ {calls : List Call} {k : Nat} {t : Run},
      Serves (r.call c) calls k t → Serves r (c :: calls) (m + k) t := by
  cases c with
  | finish =>
    obtain ⟨m, hm⟩ := h.completes_finish
    exact ⟨m, h.completes hm, fun ht => .finish hm ht⟩
  | step =>
    cases hr : r.configuration.isHalted with
    | true =>
      refine ⟨0, ?_, fun ht => ?_⟩
      · rw [call_of_isHalted hr]
        exact h
      · rw [call_of_isHalted hr] at ht
        rw [Nat.zero_add]
        exact .idle hr ht
    | false =>
      obtain ⟨hstep, hnext⟩ := h.tryStep_eq hr
      refine ⟨1, hnext, fun ht => ?_⟩
      rw [Nat.add_comm]
      exact .step hr hstep ht

theorem OnCourse.serves (h : OnCourse M w n r) (calls : List Call) :
    ∃ m, Serves r calls m (calls.foldl call r) := by
  induction calls generalizing n r with
  | nil => exact ⟨0, .done⟩
  | cons c calls ih =>
    obtain ⟨m, hcourse, hserves⟩ := h.serves_call c
    obtain ⟨k, hk⟩ := ih hcourse
    exact ⟨m + k, hserves hk⟩

/-- Calls that are served leave the run on its course, at its state after the calls and with the
same end before it. -/
theorem OnCourse.of_serves (h : OnCourse M w n r) (hserves : Serves r calls m t) :
    OnCourse M w (n + m) t ∧ t = calls.foldl call r ∧ t.finish = r.finish := by
  induction hserves generalizing n with
  | done => exact ⟨h, rfl, rfl⟩
  | @idle r t calls m hr _ ih =>
    obtain ⟨hcourse, ht, hfinish⟩ := ih h
    refine ⟨hcourse, ?_, hfinish⟩
    rw [List.foldl_cons, call_of_isHalted hr]
    exact ht
  | @step r s t calls m hr hs _ ih =>
    obtain ⟨hstep, hnext⟩ := h.tryStep_eq hr
    rw [hs] at hstep
    cases hstep
    obtain ⟨hcourse, ht, hfinish⟩ := ih hnext
    refine ⟨?_, ht, hfinish.trans (h.finish_call .step)⟩
    rw [Nat.add_comm m 1, ← Nat.add_assoc]
    exact hcourse
  | @finish r s t calls m k hs _ ih =>
    obtain rfl := h.finish_eq hs
    obtain ⟨hcourse, ht, hfinish⟩ := ih (h.completes hs)
    refine ⟨?_, ht, hfinish.trans (h.finish_call .finish)⟩
    rw [← Nat.add_assoc]
    exact hcourse

/-- Whatever is asked of a run is served without a failing look-up and leaves the run on its course:
its path is a walk of the word from the initial state, and its configuration fits the path and the
number of effective steps, of which there are no more than symbols. A run that has halted is never
changed again, and however it got there, it has the path and the configuration of the run that is
finished at once. The look-ups are those of names and other scalars: that a list or a record cannot
be looked up at all is left aside. -/
theorem calls_stay_on_course (M : Dfa) (w : Word) (calls : List Call) :
    let r := calls.foldl call (start M w)
    (∃ n, Serves (start M w) calls n r) ∧
    (∀ n t, Serves (start M w) calls n t →
      t = r ∧ n ≤ w.length ∧ Stands M w r.path n r.configuration) ∧
    M.Walk M.initial w r.path ∧
    (r.configuration.isHalted = true → (∀ c : Call, r.call c = r) ∧
      r.path = (start M w).finish.path ∧ r.configuration = M.run w) ∧
    r.tryStep = .ok r.step ∧ (∃ n ≤ w.length, r.Completes n r.finish) ∧
    r.finish.path = (start M w).finish.path ∧ r.finish.configuration = M.run w := by
  intro r
  have hstart := onCourse_start M w
  obtain ⟨n, hn⟩ := hstart.serves calls
  obtain ⟨hcourse, -, hfinish⟩ := hstart.of_serves hn
  refine ⟨⟨n, hn⟩, ?_, hcourse.walk, ?_, ?_, ?_, congrArg path hfinish,
    congrArg configuration hfinish⟩
  · intro n t ht
    obtain ⟨hcourse, rfl, -⟩ := hstart.of_serves ht
    rw [Nat.zero_add] at hcourse
    exact ⟨rfl, hcourse.stands.le_length, hcourse.stands⟩
  · intro hr
    rw [finish_of_isHalted hr] at hfinish
    exact ⟨call_of_isHalted hr, congrArg path hfinish, congrArg configuration hfinish⟩
  · cases hr : r.configuration.isHalted with
    | false => exact (hcourse.tryStep_eq hr).1
    | true =>
      rw [step_of_isHalted hr]
      cases hc : r.configuration <;> simp_all [tryStep, Configuration.isHalted]
  · obtain ⟨m, hm⟩ := hcourse.completes_finish
    have hle := (hcourse.completes hm).stands.le_length
    exact ⟨m, by omega, hm⟩

end Run
end WordAutomata
