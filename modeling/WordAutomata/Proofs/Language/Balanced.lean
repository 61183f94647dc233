import WordAutomata.Proofs.Dfa.Trail

/-!
# Balanced words and stacks

Balanced words of brackets are generated by pairs around balanced words, with a bound on how deep
the pairs are nested. A word that is not closed is cut by its open brackets into balanced pieces,
each of which has the less depth left the more brackets are open around it. A stack of bounded
height that is turned by the brackets of a word reads exactly those words: it holds the open
brackets, and it is empty again when the word is balanced.
-/
namespace WordAutomata.Language

inductive Bracket where
  | opening (kind : Nat)
  | closing (kind : Nat)
deriving DecidableEq, Repr

def Bracket.kind : Bracket → Nat
  | opening a => a
  | closing a => a

/-- Every closing bracket closes the innermost open one, of its own kind, all are closed in the end,
and no more than `depth` are open at once. -/
inductive Balanced : Nat → List Bracket → Prop where
  | nil {depth : Nat} : Balanced depth []
  | pair {depth a : Nat} {inner rest : List Bracket} (hinner : Balanced depth inner)
      (hrest : Balanced (depth + 1) rest) :
      Balanced (depth + 1) (.opening a :: inner ++ .closing a :: rest)

/-- The brackets that a word leaves open, the outermost first, of at most `depth` open at once. -/
inductive Unclosed : Nat → List Nat → List Bracket → Prop where
  | balanced {depth : Nat} {w : List Bracket} (h : Balanced depth w) : Unclosed depth [] w
  | opening {depth a : Nat} {stack : List Nat} {before inner : List Bracket}
      (hbefore : Balanced (depth + 1) before) (hinner : Unclosed depth stack inner) :
      Unclosed (depth + 1) (a :: stack) (before ++ .opening a :: inner)

/-- A bracket puts its kind on a stack or takes it off, from the end. -/
inductive Bracket.Turns : List Nat → Bracket → List Nat → Prop where
  | opening {stack : List Nat} {a : Nat} : Turns stack (.opening a) (stack ++ [a])
  | closing {stack : List Nat} {a : Nat} : Turns (stack ++ [a]) (.closing a) stack

def Within (kinds depth : Nat) (stack : List Nat) : Prop :=
  stack.length ≤ depth ∧ ∀ a ∈ stack, a < kinds

/-- A bracket turns a stack within the bounds into one within the bounds. -/
def Bracket.Step (kinds depth : Nat) (s : List Nat) (b : Bracket) (t : List Nat) : Prop :=
  Turns s b t ∧ Within kinds depth s ∧ Within kinds depth t

variable {kinds depth d a : Nat} {s t stack : List Nat} {u v w : List Bracket}

theorem unclosed_nil_iff : Unclosed d [] w ↔ Balanced d w := by
  constructor
  · intro h
    cases h with
    | balanced h => exact h
  · exact .balanced

theorem Balanced.append (hu : Balanced d u) (hv : Balanced d v) : Balanced d (u ++ v) := by
  induction hu with
  | nil => exact hv
  | pair hinner _ _ ih =>
    rw [List.append_assoc, List.cons_append]
    exact .pair hinner (ih hv)

theorem Unclosed.append_opening (h : Unclosed d stack w) (hroom : stack.length < d) (a : Nat) :
    Unclosed d (stack ++ [a]) (w ++ [.opening a]) := by
  induction h with
  | @balanced d w h =>
    obtain ⟨e, rfl⟩ : ∃ e, d = e + 1 := ⟨d - 1, by simp at hroom; omega⟩
    exact .opening h (.balanced .nil)
  | opening hbefore _ ih =>
    rw [List.append_assoc, List.cons_append, List.cons_append]
    exact .opening hbefore (ih (Nat.lt_of_succ_lt_succ hroom))

theorem Unclosed.append_closing (s : List Nat) : ∀ {d : Nat} {w : List Bracket},
    Unclosed d (s ++ [a]) w → Unclosed d s (w ++ [.closing a]) := by
  induction s with
  | nil =>
    intro d w h
    cases h with
    | opening hbefore hinner =>
      have hpair := Balanced.pair (a := a) (unclosed_nil_iff.1 hinner) .nil
      have hall := hbefore.append hpair
      rw [List.append_assoc, List.cons_append]
      exact .balanced hall
  | cons b s ih =>
    intro d w h
    cases h with
    | opening hbefore hinner =>
      rw [List.append_assoc, List.cons_append]
      exact .opening hbefore (ih hinner)

theorem within_nil : Within kinds depth [] := ⟨Nat.zero_le _, by simp⟩

theorem within_append_iff : Within kinds depth (s ++ [a]) ↔
    Within kinds depth s ∧ s.length < depth ∧ a < kinds := by
  simp only [Within, List.length_append, List.length_singleton, List.mem_append,
    List.mem_singleton, or_imp, forall_and, forall_eq]
  constructor
  · rintro ⟨hlen, hs, ha⟩
    exact ⟨⟨by omega, hs⟩, by omega, ha⟩
  · rintro ⟨⟨-, hs⟩, hlen, ha⟩
    exact ⟨by omega, hs, ha⟩

/-! ## From the stack to the grammar -/

/-- One bracket: the word before it leaves the old stack open, the word with it the new one. -/
theorem Unclosed.step {b : Bracket} (h : Unclosed depth s w) (hb : Bracket.Step kinds depth s b t) :
    Unclosed depth t (w ++ [b]) ∧ b.kind < kinds := by
  obtain ⟨hturn, hs, ht⟩ := hb
  cases hturn with
  | opening =>
    obtain ⟨-, hroom, ha⟩ := within_append_iff.1 ht
    exact ⟨h.append_opening hroom _, ha⟩
  | closing => exact ⟨.append_closing _ h, (within_append_iff.1 hs).2.2⟩

theorem unclosed_of_trail (h : Trail (Bracket.Step kinds depth) [] w stack) :
    (∀ b ∈ w, b.kind < kinds) ∧ Unclosed depth stack w := by
  refine h.keeps (P := fun w stack => (∀ b ∈ w, b.kind < kinds) ∧ Unclosed depth stack w) ?_ []
    ⟨by simp, .balanced .nil⟩
  rintro w b s t ⟨hkinds, hs⟩ hstep
  obtain ⟨ht, hb⟩ := hs.step hstep
  refine ⟨?_, ht⟩
  intro c hc
  rcases List.mem_append.1 hc with hc | hc
  · exact hkinds c hc
  · obtain rfl := List.mem_singleton.1 hc
    exact hb

/-! ## From the grammar to the stack -/

/-- A balanced word gives the stack back that it is read on, if there is room above it. -/
theorem Balanced.trail (h : Balanced d w) : ∀ {s : List Nat}, (∀ b ∈ w, b.kind < kinds) →
    Within kinds depth s → s.length + d ≤ depth → Trail (Bracket.Step kinds depth) s w s := by
  induction h with
  | nil =>
    intro s _ _ _
    exact .nil
  | @pair d a inner rest _ _ ihinner ihrest =>
    intro s hkinds hs hroom
    simp only [List.cons_append, List.mem_cons, List.mem_append, or_imp, forall_and,
      forall_eq] at hkinds
    obtain ⟨ha, hinner, -, hrest⟩ := hkinds
    have hsa : Within kinds depth (s ++ [a]) := within_append_iff.2 ⟨hs, by omega, ha⟩
    have hlen : (s ++ [a]).length + d ≤ depth := by
      rw [List.length_append, List.length_singleton]
      omega
    refine .cons ⟨.opening, hs, hsa⟩ ((ihinner hinner hsa hlen).append ?_)
    exact .cons ⟨.closing, hsa, hs⟩ (ihrest hrest hs hroom)

theorem Unclosed.trail (h : Unclosed d stack w) : ∀ {s : List Nat}, (∀ b ∈ w, b.kind < kinds) →
    Within kinds depth s → s.length + d ≤ depth →
      Trail (Bracket.Step kinds depth) s w (s ++ stack) := by
  induction h with
  | balanced h =>
    intro s hkinds hs hroom
    rw [List.append_nil]
    exact h.trail hkinds hs hroom
  | @opening d a stack before inner hbefore _ ih =>
    intro s hkinds hs hroom
    simp only [List.mem_append, List.mem_cons, or_imp, forall_and, forall_eq] at hkinds
    obtain ⟨hkb, ha, hki⟩ := hkinds
    have hsa : Within kinds depth (s ++ [a]) := within_append_iff.2 ⟨hs, by omega, ha⟩
    have hlen : (s ++ [a]).length + d ≤ depth := by
      rw [List.length_append, List.length_singleton]
      omega
    have hinner := ih hki hsa hlen
    rw [← List.append_cons] at hinner
    exact (hbefore.trail hkb hs hroom).append (.cons ⟨.opening, hs, hsa⟩ hinner)

/-- The stack reads the words of the grammar, and holds what they leave open. -/
theorem trail_iff_unclosed : Trail (Bracket.Step kinds depth) [] w stack ↔
    (∀ b ∈ w, b.kind < kinds) ∧ Unclosed depth stack w := by
  constructor
  · exact unclosed_of_trail
  · rintro ⟨hkinds, h⟩
    exact h.trail hkinds within_nil (Nat.le_of_eq (Nat.zero_add depth))

end WordAutomata.Language
