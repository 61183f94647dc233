import WordAutomata.Proofs.Dfa.Plan
import WordAutomata.Proofs.Dfa.Run

/-!
# Automata follow their plans

A trail is a sequence of labelled steps. Reading a word is a trail of moves, and in an automaton
that depicts a plan it is a trail of the plan's arcs under other names. So the accepted words are
spelled by the labels that lead to a final state of the plan, and the states on the path of a run
are named after those that the labels of a prefix lead to.
-/
namespace WordAutomata

/-- Steps that carry the given labels, one after the other. -/
inductive Trail {σ β : Type} (step : σ → β → σ → Prop) : σ → List β → σ → Prop where
  | nil {s : σ} : Trail step s [] s
  | cons {s t u : σ} {a : β} {w : List β} (h : step s a t) (ht : Trail step t w u) :
      Trail step s (a :: w) u

namespace Trail

variable {σ β : Type} {step : σ → β → σ → Prop} {s t u : σ} {a : β} {v w : List β}

theorem append (h : Trail step s v t) (ht : Trail step t w u) : Trail step s (v ++ w) u := by
  induction h with
  | nil => exact ht
  | cons hstep _ ih => exact .cons hstep (ih ht)

theorem single (h : step s a t) : Trail step s [a] t := .cons h .nil

theorem congr {step' : σ → β → σ → Prop} (h : ∀ s a t, step s a t ↔ step' s a t) :
    Trail step s w t ↔ Trail step' s w t := by
  have hstep : step = step' := funext fun s => funext fun a => funext fun t => propext (h s a t)
  rw [hstep]

/-- What every step keeps, with its label put behind those before it, a trail keeps. -/
theorem keeps {P : List β → σ → Prop} (hstep : ∀ v a t u, P v t → step t a u → P (v ++ [a]) u)
    (h : Trail step s w u) : ∀ v, P v s → P (v ++ w) u := by
  induction h with
  | nil =>
    intro v hv
    rw [List.append_nil]
    exact hv
  | @cons s t u a w hs _ ih =>
    intro v hv
    rw [List.append_cons]
    exact ih (v ++ [a]) (hstep v a s t hv hs)

end Trail

namespace Dfa

variable {M : Dfa} {w : Word} {q r : String}

/-- Reading a word in a state leads to a state. -/
def Leads (M : Dfa) : String → Word → String → Prop :=
  Trail fun q a r => M.move q a = .into r

theorem leads_nil_iff : M.Leads q [] r ↔ r = q := by
  constructor
  · intro h
    cases h
    rfl
  · rintro rfl
    exact .nil

theorem leads_cons_iff {a : Datum} :
    M.Leads q (a :: w) r ↔ ∃ s, M.move q a = .into s ∧ M.Leads s w r := by
  constructor
  · intro h
    cases h with
    | cons hs ht => exact ⟨_, hs, ht⟩
  · rintro ⟨s, hs, ht⟩
    exact .cons hs ht

theorem isAccepted_ending_iff (w : Word) : ∀ (q : String) (i : Nat),
    (M.ending q i w).isAccepted = true ↔ ∃ r ∈ M.finals, M.Leads q w r := by
  induction w with
  | nil =>
    intro q i
    simp only [leads_nil_iff, exists_eq_right, ending]
    by_cases hq : q ∈ M.finals
    · simp [hq, Configuration.isAccepted]
    · simp [hq, Configuration.isAccepted]
  | cons a w ih =>
    intro q i
    simp only [leads_cons_iff, ending]
    cases hm : M.move q a with
    | into s => simp [ih]
    | _ => simp [Configuration.isAccepted]

theorem accepts_iff_leads : M.accepts w = true ↔ ∃ r ∈ M.finals, M.Leads M.initial w r := by
  rw [accepts, run_eq_ending]
  exact isAccepted_ending_iff w M.initial 0

/-- The states on the way are those that the prefixes of the word lead to. -/
theorem getElem?_trace_iff (w : Word) : ∀ (q : String) (n : Nat),
    (q :: M.trace q w)[n]? = some r ↔ n ≤ w.length ∧ M.Leads q (w.take n) r := by
  induction w with
  | nil =>
    intro q n
    cases n with
    | zero => simp [trace, leads_nil_iff, eq_comm]
    | succ n => simp [trace]
  | cons a w ih =>
    intro q n
    cases n with
    | zero => simp [leads_nil_iff, eq_comm]
    | succ n =>
      rw [List.getElem?_cons_succ, List.take_succ_cons, leads_cons_iff, List.length_cons,
        Nat.add_le_add_iff_right, trace]
      cases hm : M.move q a with
      | into s => simp [ih]
      | _ => simp

theorem path_finish_iff {n : Nat} : (Run.start M w).finish.path[n]? = some r ↔
    n ≤ w.length ∧ M.Leads M.initial (w.take n) r := by
  rw [Run.finish_start]
  exact getElem?_trace_iff w M.initial n

end Dfa

/-- Names for the states and symbols of a plan, different names for different things. -/
structure Spelling (σ β : Type) where
  name : σ → String
  symbol : β → String
  name_injective : Function.Injective name
  symbol_injective : Function.Injective symbol
  name_ne_empty : ∀ s, name s ≠ ""
  symbol_fit : ∀ b, symbol b ≠ "" ∧ ',' ∉ (symbol b).toList

namespace Plan

variable {σ β : Type}

/-- The diagram of a plan under a spelling. -/
def draw (P : Plan σ β) (S : Spelling σ β) : Diagram := (P.map S.name S.symbol).diagram

/-- A step along an arc. -/
def Step (P : Plan σ β) (s : σ) (b : β) (t : σ) : Prop := (s, b, t) ∈ P.arcs

/-- An automaton is built like a plan: it has as many states and symbols, it accepts the words whose
labels lead from the initial state to a final one, and its runs visit the states that the labels of
prefixes lead to. -/
structure Realizes (P : Plan σ β) (S : Spelling σ β) (M : Dfa) : Prop where
  size : M.size = P.states.length
  alphabet_size : M.alphabet.size = P.symbols.length
  accepts_iff : ∀ w, M.accepts w = true ↔ ∃ labels, ∃ t ∈ P.finals,
    Trail P.Step P.initial labels t ∧ w = Word.ofNames (labels.map S.symbol)
  path_iff : ∀ (w : Word) (n : Nat) (q : String),
    (Run.start M w).finish.path[n]? = some q ↔ n ≤ w.length ∧ ∃ labels t,
      Trail P.Step P.initial labels t ∧ w.take n = Word.ofNames (labels.map S.symbol) ∧ q = S.name t

variable {P : Plan σ β} {S : Spelling σ β} {M : Dfa}

theorem move_eq_into_iff (hM : (P.map S.name S.symbol).Depicts M) {s : σ} {a : Datum} {r : String} :
    M.move (S.name s) a = .into r ↔
      ∃ b t, P.Step s b t ∧ a = .text (S.symbol b) ∧ r = S.name t := by
  have harc : ∀ b, M.move (S.name s) (.text b) = .into r ↔ M.next? (S.name s) b = some r := by
    intro b
    rw [Dfa.move]
    by_cases hb : b ∈ M.alphabet.symbols
    · rw [if_pos hb]
      cases M.next? (S.name s) b <;> simp
    · rw [if_neg hb]
      constructor
      · intro h
        cases h
      · intro h
        exact absurd (Dfa.mem_of_next? h).2 hb
  constructor
  · intro h
    cases a with
    | text b =>
      obtain ⟨s', b', t, hstep, hs, rfl, rfl⟩ :=
        mem_arcs_map.1 ((hM.next?_iff _ _ _).1 ((harc b).1 h))
      rw [S.name_injective hs] at hstep
      exact ⟨b', t, hstep, rfl, rfl⟩
    | _ => cases h
  · rintro ⟨b, t, hstep, rfl, rfl⟩
    rw [harc, hM.next?_iff]
    exact mem_arcs_map.2 ⟨s, b, t, hstep, rfl, rfl, rfl⟩

/-- Reading a word follows the arcs whose symbols spell the word. -/
theorem leads_iff (hM : (P.map S.name S.symbol).Depicts M) (w : Word) : ∀ (s : σ) (r : String),
    M.Leads (S.name s) w r ↔
      ∃ labels t, Trail P.Step s labels t ∧ w = Word.ofNames (labels.map S.symbol) ∧ r = S.name t := by
  induction w with
  | nil =>
    intro s r
    rw [Dfa.leads_nil_iff]
    constructor
    · rintro rfl
      exact ⟨[], s, .nil, rfl, rfl⟩
    · rintro ⟨labels, t, ht, hw, rfl⟩
      cases ht with
      | nil => rfl
      | cons => cases hw
  | cons a w ih =>
    intro s r
    rw [Dfa.leads_cons_iff]
    constructor
    · rintro ⟨q, hq, hr⟩
      obtain ⟨b, t, hstep, rfl, rfl⟩ := (move_eq_into_iff hM).1 hq
      obtain ⟨labels, u, hu, rfl, rfl⟩ := (ih t r).1 hr
      exact ⟨b :: labels, u, .cons hstep hu, rfl, rfl⟩
    · rintro ⟨labels, u, hu, hw, rfl⟩
      cases hu with
      | nil => cases hw
      | @cons _ t _ b labels hstep ht =>
        cases hw
        exact ⟨S.name t, (move_eq_into_iff hM).2 ⟨b, t, hstep, rfl, rfl⟩,
          (ih t _).2 ⟨labels, u, ht, rfl, rfl⟩⟩

theorem Depicts.realizes (hM : (P.map S.name S.symbol).Depicts M) : P.Realizes S M where
  size := hM.states.length_eq.trans (List.length_map _)
  alphabet_size := hM.symbols.length_eq.trans (List.length_map _)
  accepts_iff := by
    intro w
    rw [Dfa.accepts_iff_leads, hM.initial]
    constructor
    · rintro ⟨r, hr, hw⟩
      obtain ⟨labels, t, ht, rfl, rfl⟩ := (leads_iff hM w P.initial r).1 hw
      obtain ⟨u, hu, he⟩ := List.mem_map.1 ((hM.finals _).1 hr)
      exact ⟨labels, t, S.name_injective he ▸ hu, ht, rfl⟩
    · rintro ⟨labels, t, hfinal, ht, hw⟩
      exact ⟨S.name t, (hM.finals _).2 (List.mem_map_of_mem hfinal),
        (leads_iff hM w P.initial _).2 ⟨labels, t, ht, hw, rfl⟩⟩
  path_iff := by
    intro w n q
    rw [Dfa.path_finish_iff, hM.initial]
    exact and_congr_right fun _ => leads_iff hM (w.take n) P.initial q

theorem Realizes.accepts_iff_trail (hM : P.Realizes S M) {t : σ} (hfinal : P.finals = [t])
    (w : Word) : M.accepts w = true ↔ ∃ labels,
      Trail P.Step P.initial labels t ∧ w = Word.ofNames (labels.map S.symbol) := by
  rw [hM.accepts_iff, hfinal]
  simp only [List.mem_singleton, exists_eq_left]

/-- The accepted words are known from what every state makes of them, if the empty word is good in
the final states only, and a longer word where a step on its first symbol leads to a state in which
the rest is good. -/
theorem Realizes.accepts_iff_good (hM : P.Realizes S M) {G : σ → Word → Prop}
    (hnil : ∀ s, G s [] ↔ s ∈ P.finals)
    (hcons : ∀ s b w, G s (.text (S.symbol b) :: w) ↔ ∃ t, P.Step s b t ∧ G t w) (w : Word) :
    M.accepts w = true ↔
      (∃ labels : List β, w = Word.ofNames (labels.map S.symbol)) ∧ G P.initial w := by
  have hgood : ∀ (labels : List β) (s : σ), G s (Word.ofNames (labels.map S.symbol)) ↔
      ∃ t ∈ P.finals, Trail P.Step s labels t := by
    intro labels
    induction labels with
    | nil =>
      intro s
      refine (hnil s).trans ⟨fun hs => ⟨s, hs, .nil⟩, ?_⟩
      intro hleads
      obtain ⟨t, ht, htrail⟩ := hleads
      cases htrail
      exact ht
    | cons b labels ih =>
      intro s
      refine (hcons s b _).trans ?_
      constructor
      · intro hfirst
        obtain ⟨t, hstep, hrest⟩ := hfirst
        obtain ⟨u, hu, htrail⟩ := (ih t).1 hrest
        exact ⟨u, hu, .cons hstep htrail⟩
      · intro hleads
        obtain ⟨u, hu, htrail⟩ := hleads
        cases htrail with
        | @cons _ t _ _ _ hstep hrest => exact ⟨t, hstep, (ih t).2 ⟨u, hu, hrest⟩⟩
  rw [hM.accepts_iff]
  constructor
  · intro hspelled
    obtain ⟨labels, t, ht, htrail, rfl⟩ := hspelled
    exact ⟨⟨labels, rfl⟩, (hgood labels P.initial).2 ⟨t, ht, htrail⟩⟩
  · intro hbinary
    obtain ⟨⟨labels, rfl⟩, hw⟩ := hbinary
    obtain ⟨t, ht, htrail⟩ := (hgood labels P.initial).1 hw
    exact ⟨labels, t, ht, htrail, rfl⟩

/-- A fit plan is realized by the automaton of its diagram. -/
theorem Fit.exists_realizes (h : P.Fit) (S : Spelling σ β) :
    ∃ M, (P.draw S).build = .ok M ∧ P.Realizes S M := by
  obtain ⟨M, hbuild, hM⟩ := Plan.exists_build (h.map S.name_injective S.symbol_injective)
    (by
      intro q hq
      obtain ⟨s, -, rfl⟩ := List.mem_map.1 hq
      exact S.name_ne_empty s)
    (by
      intro a ha
      obtain ⟨b, -, rfl⟩ := List.mem_map.1 ha
      exact S.symbol_fit b)
  exact ⟨M, hbuild, hM.realizes⟩

end Plan
end WordAutomata
