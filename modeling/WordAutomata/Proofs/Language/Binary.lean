import Mathlib.Algebra.Ring.Parity
import Mathlib.Data.Fintype.Option
import Mathlib.Data.Fintype.Prod
import WordAutomata.Language.Named
import WordAutomata.Proofs.Dfa.Trail

/-!
# The languages of binary words

A state of an automaton stands for the words that lead to it: what may follow is the same for all of
them, so one of them can speak for the state. A language is shown to be that of a diagram by giving
every state such a word. The word of a state is in the language exactly if the state is final, and
one more symbol behind it is as good as the word of the state that the arc leads to.
-/
namespace WordAutomata.Language

def bit : Bool → String
  | false => "0"
  | true => "1"

/-- A word whose symbols are all `0` or `1`. -/
def Binary (w : Word) : Prop := ∀ a ∈ w, a = .text "0" ∨ a = .text "1"

/-- The diagram is that of the named language, and the words of the language are the binary ones
with the given property. -/
def IsLanguage (D : Diagram) (name : String) (L : Word → Prop) : Prop :=
  ∃ M, build D = .ok M ∧ named name = .ok M ∧ ∀ w, M.accepts w = true ↔ Binary w ∧ L w

theorem bit_injective : Function.Injective bit := by
  intro b c h
  cases b <;> cases c <;> first | rfl | exact absurd h (by decide)

theorem bit_fit (b : Bool) : bit b ≠ "" ∧ ',' ∉ (bit b).toList := by
  cases b <;> decide

theorem binary_iff {w : Word} :
    Binary w ↔ ∃ labels : List Bool, w = Word.ofNames (labels.map bit) := by
  constructor
  · intro h
    induction w with
    | nil => exact ⟨[], rfl⟩
    | cons a w ih =>
      obtain ⟨ha, hw⟩ := List.forall_mem_cons.1 h
      obtain ⟨labels, rfl⟩ := ih hw
      rcases ha with rfl | rfl
      · exact ⟨false :: labels, rfl⟩
      · exact ⟨true :: labels, rfl⟩
  · intro h a ha
    obtain ⟨labels, rfl⟩ := h
    simp only [Word.ofNames, List.map_map, List.mem_map, Function.comp_apply] at ha
    obtain ⟨b, -, rfl⟩ := ha
    cases b
    · exact .inl rfl
    · exact .inr rfl

/-- Names for the states of a plan over the two symbols. -/
def bitSpelling {σ : Type} (name : σ → String) (hname : Function.Injective name)
    (hne : ∀ s, name s ≠ "") : Spelling σ Bool where
  name := name
  symbol := bit
  name_injective := hname
  symbol_injective := bit_injective
  name_ne_empty := hne
  symbol_fit := bit_fit

/-- A language belongs to the diagram of a plan if every state of the plan is represented by a
word. -/
theorem IsLanguage.of_representatives {σ : Type} {P : Plan σ Bool} {S : Spelling σ Bool}
    {D : Diagram} {name : String} {L : Word → Prop} (hP : P.Fit) (hS : S.symbol = bit)
    (hD : P.draw S = D) (hname : named name = build D) (word : σ → Word)
    (hinitial : word P.initial = []) (hfinals : ∀ s, L (word s) ↔ s ∈ P.finals)
    (hstep : ∀ s b w, L (word s ++ .text (bit b) :: w) ↔ ∃ t, P.Step s b t ∧ L (word t ++ w)) :
    IsLanguage D name L := by
  obtain ⟨M, hbuild, hM⟩ := hP.exists_realizes S
  have hok : build D = .ok M := by
    rw [build, ← hD, hbuild]
    rfl
  refine ⟨M, hok, hname.trans hok, fun w => ?_⟩
  -- A word is good in a state if it is in the language behind the word of the state.
  have haccepts := hM.accepts_iff_good (G := fun s w => L (word s ++ w))
    (fun s => by rw [List.append_nil]; exact hfinals s) (hS ▸ hstep) w
  rw [haccepts, binary_iff, hS, hinitial, List.nil_append]

/-! ## One state -/

def onePlan (arcs : List (Unit × Bool × Unit)) (finals : List Unit) : Plan Unit Bool where
  states := [()]
  symbols := [false, true]
  arcs := arcs
  initial := ()
  finals := finals

def oneSpelling : Spelling Unit Bool :=
  bitSpelling (fun _ => "q0") (fun _ _ _ => rfl) (fun _ => by decide)

theorem isLanguage_allStrings : IsLanguage allStrings "all-strings" fun _ => True := by
  have hfit : (onePlan [((), false, ()), ((), true, ())] [()]).Fit := by decide
  refine .of_representatives (S := oneSpelling) hfit rfl rfl rfl (fun _ => []) rfl ?_ ?_
  · simp [onePlan]
  · intro s b w
    cases b <;> simp [Plan.Step, onePlan]

theorem isLanguage_emptySet : IsLanguage emptySet "empty-set" fun _ => False := by
  have hfit : (onePlan [] []).Fit := by decide
  refine .of_representatives (S := oneSpelling) hfit rfl rfl rfl (fun _ => []) rfl ?_ ?_
  · simp [onePlan]
  · simp

/-! ## Two states -/

/-- A plan of two states, the first of which is initial. -/
def twoPlan (arcs : List (Bool × Bool × Bool)) (final : Bool) : Plan Bool Bool where
  states := [false, true]
  symbols := [false, true]
  arcs := arcs
  initial := false
  finals := [final]

def twoSpelling (initial other : String) (h : initial ≠ other) (hinitial : initial ≠ "")
    (hother : other ≠ "") : Spelling Bool Bool :=
  bitSpelling (fun s => if s then other else initial)
    (fun s t he => by
      cases s <;> cases t <;> first | rfl | exact absurd he h | exact absurd he.symm h)
    (fun s => by cases s <;> assumption)

def paritySpelling : Spelling Bool Bool :=
  twoSpelling "even" "odd" (by decide) (by decide) (by decide)

def numberedSpelling : Spelling Bool Bool :=
  twoSpelling "q0" "q1" (by decide) (by decide) (by decide)

/-- An odd state has read a one, which is as good as any odd number of them. -/
theorem isLanguage_parity :
    IsLanguage parity "parity" fun w => Odd (w.count (.text "1")) := by
  have hfit : (twoPlan [(false, false, false), (false, true, true), (true, false, true),
    (true, true, false)] true).Fit := by decide
  refine .of_representatives (S := paritySpelling) hfit rfl rfl rfl
    (fun odd => if odd then [.text "1"] else []) rfl ?_ ?_
  · intro s
    cases s <;> simp [twoPlan]
  · intro s b w
    cases s <;> cases b <;> simp [Plan.Step, twoPlan, bit, Nat.odd_iff] <;> omega

/-- Behind a one everything is good, and behind a zero nothing. -/
theorem isLanguage_first :
    IsLanguage first "first" fun w => w.head? = some (.text "1") := by
  have hfit : (twoPlan [(false, true, true), (true, false, true),
    (true, true, true)] true).Fit := by decide
  refine .of_representatives (S := numberedSpelling) hfit rfl rfl rfl
    (fun begun => if begun then [.text "1"] else []) rfl ?_ ?_
  · intro s
    cases s <;> simp [twoPlan]
  · intro s b w
    cases s <;> cases b <;> simp [Plan.Step, twoPlan, bit]

/-- A word that repeats `01` some number of times. -/
def Repeats01 (w : Word) : Prop := ∃ n, w = (List.replicate n [.text "0", .text "1"]).flatten

theorem repeats01_nil : Repeats01 [] := ⟨0, rfl⟩

theorem not_repeats01_singleton (a : Datum) : ¬ Repeats01 [a] := by
  intro hrepeats
  obtain ⟨n, h⟩ := hrepeats
  cases n with
  | zero => cases h
  | succ n => cases h

theorem repeats01_cons_cons_iff {a b : Datum} {w : Word} :
    Repeats01 (a :: b :: w) ↔ a = .text "0" ∧ b = .text "1" ∧ Repeats01 w := by
  constructor
  · intro hrepeats
    obtain ⟨n, h⟩ := hrepeats
    cases n with
    | zero => cases h
    | succ n =>
      cases h
      exact ⟨rfl, rfl, n, rfl⟩
  · intro hrest
    obtain ⟨rfl, rfl, n, rfl⟩ := hrest
    exact ⟨n + 1, rfl⟩

theorem repeats01_cons {a : Datum} {w : Word} (h : Repeats01 (a :: w)) : a = .text "0" := by
  cases w with
  | nil => exact absurd h (not_repeats01_singleton a)
  | cons b w => exact (repeats01_cons_cons_iff.1 h).1

/-- Between the repetitions nothing is left over, and behind a zero its one is missing. -/
theorem isLanguage_repeat01 : IsLanguage repeat01 "repeat-01" Repeats01 := by
  have hfit : (twoPlan [(false, false, true), (true, true, false)] false).Fit := by decide
  refine .of_representatives (S := numberedSpelling) hfit rfl rfl rfl
    (fun half => if half then [.text "0"] else []) rfl ?_ ?_
  · intro s
    cases s <;> simp [twoPlan, repeats01_nil, not_repeats01_singleton]
  · intro s b w
    cases s with
    | false =>
      cases b with
      | false => simp [Plan.Step, twoPlan, bit]
      | true =>
        have hnot : ¬ Repeats01 (.text "1" :: w) := fun h => absurd (repeats01_cons h) (by decide)
        simp [Plan.Step, twoPlan, bit, hnot]
    | true => cases b <;> simp [Plan.Step, twoPlan, bit, repeats01_cons_cons_iff]

/-! ## The same symbol at both ends -/

/-- The state after the first and the last symbol that were read, if any was. -/
def endsName : Option (Bool × Bool) → String
  | none => "q0"
  | some (false, false) => "a"
  | some (true, true) => "b"
  | some (false, true) => "ar"
  | some (true, false) => "br"

def endsSpelling : Spelling (Option (Bool × Bool)) Bool :=
  bitSpelling endsName (by decide) (by decide)

def endsPlan : Plan (Option (Bool × Bool)) Bool where
  states := [none, some (false, false), some (true, true), some (false, true), some (true, false)]
  symbols := [false, true]
  arcs := [(none, false, some (false, false)), (none, true, some (true, true)),
    (some (false, false), false, some (false, false)),
    (some (false, false), true, some (false, true)),
    (some (false, true), false, some (false, false)),
    (some (false, true), true, some (false, true)),
    (some (true, true), true, some (true, true)),
    (some (true, true), false, some (true, false)),
    (some (true, false), true, some (true, true)),
    (some (true, false), false, some (true, false))]
  initial := none
  finals := [none, some (false, false), some (true, true)]

/-- The first symbol stays, and the last one is the one that was read. -/
theorem step_endsPlan_iff : ∀ s b t, endsPlan.Step s b t ↔
    t = some ((s.map Prod.fst).getD b, b) := by
  unfold Plan.Step
  decide

theorem fit_endsPlan : endsPlan.Fit := by decide

/-- The first and the last symbol as a word. -/
def endsWord : Option (Bool × Bool) → Word
  | none => []
  | some (first, last) => [.text (bit first), .text (bit last)]

theorem isLanguage_evenPairs :
    IsLanguage evenPairs "even-pairs" fun w => w.head? = w.getLast? := by
  refine .of_representatives (S := endsSpelling) fit_endsPlan rfl rfl rfl endsWord rfl (by decide) ?_
  -- Whether the ends agree does not depend on what stands between them.
  intro s b w
  simp only [step_endsPlan_iff, exists_eq_left]
  cases s with
  | none => cases w <;> simp [endsWord]
  | some ends => simp [endsWord]

/-! ## Neighbours that differ -/

/-- How often the first of two symbols stands right before the second. -/
def neighbours (a b : String) (w : Word) : Nat := (w.zip w.tail).count (.text a, .text b)

/-- The number of neighbours `01` and `10`. -/
def changes (w : Word) : Nat := neighbours "0" "1" w + neighbours "1" "0" w

theorem neighbours_same {a b : String} (h : a ≠ b) (c : Datum) (w : Word) :
    neighbours a b (c :: c :: w) = neighbours a b (c :: w) := by
  have hne : (c, c) ≠ (Datum.text a, Datum.text b) := by
    intro he
    have htexts : Datum.text a = Datum.text b :=
      (congrArg Prod.fst he).symm.trans (congrArg Prod.snd he)
    exact h (Datum.text_injective htexts)
  exact List.count_cons_of_ne hne

theorem changes_same (c : Datum) (w : Word) : changes (c :: c :: w) = changes (c :: w) := by
  rw [changes, neighbours_same (by decide), neighbours_same (by decide), changes]

theorem changes_other (b : Bool) (w : Word) :
    changes (.text (bit !b) :: .text (bit b) :: w) = changes (.text (bit b) :: w) + 1 := by
  cases b <;> simp [changes, neighbours, bit] <;> omega

theorem getLast?_cons_iff_not (b c : Bool) (labels : List Bool) :
    (c :: labels).getLast? = some (!b) ↔ ¬ (c :: labels).getLast? = some b := by
  have hlast := List.getLast?_eq_some_getLast (List.cons_ne_nil c labels)
  rw [hlast]
  cases b <;> simp

/-- Every change of the symbol takes the last one from the first or back to it. -/
theorem even_changes_iff (labels : List Bool) : ∀ b : Bool,
    Even (changes (Word.ofNames ((b :: labels).map bit))) ↔ (b :: labels).getLast? = some b := by
  -- The first symbol is general: behind a change the rest of the word begins with the other one.
  induction labels with
  | nil =>
    intro b
    simp [changes, neighbours, Word.ofNames]
  | cons c labels ih =>
    intro b
    rw [List.getLast?_cons_cons]
    by_cases hb : b = c
    · subst hb
      rw [← ih b]
      exact iff_of_eq (congrArg Even (changes_same _ _))
    · obtain rfl : b = !c := Bool.eq_not.2 hb
      rw [getLast?_cons_iff_not, ← ih c, ← Nat.even_add_one]
      exact iff_of_eq (congrArg Even (changes_other _ _))

theorem head?_eq_getLast?_iff_even {w : Word} (h : Binary w) :
    w.head? = w.getLast? ↔ Even (changes w) := by
  obtain ⟨labels, rfl⟩ := binary_iff.1 h
  cases labels with
  | nil => simp [changes, neighbours, Word.ofNames]
  | cons b labels =>
    rw [even_changes_iff, Word.ofNames, List.map_map, List.head?_map, List.getLast?_map]
    have hinjective := Option.map_injective (Datum.text_injective.comp bit_injective)
    rw [hinjective.eq_iff, List.head?_cons, eq_comm]

/-- The languages of binary words are the documented ones: the automaton of each diagram, which is
also found under its name, accepts exactly the binary words with the property. -/
theorem binary_languages_are_exact :
    IsLanguage allStrings "all-strings" (fun _ => True) ∧
    IsLanguage emptySet "empty-set" (fun _ => False) ∧
    IsLanguage parity "parity" (fun w => Odd (w.count (.text "1"))) ∧
    IsLanguage first "first" (fun w => w.head? = some (.text "1")) ∧
    IsLanguage repeat01 "repeat-01" Repeats01 ∧
    IsLanguage evenPairs "even-pairs" (fun w => w.head? = w.getLast?) ∧
    ∀ w, Binary w →
      (w.head? = w.getLast? ↔ Even (neighbours "0" "1" w + neighbours "1" "0" w)) :=
  ⟨isLanguage_allStrings, isLanguage_emptySet, isLanguage_parity, isLanguage_first,
    isLanguage_repeat01, isLanguage_evenPairs, fun _ => head?_eq_getLast?_iff_even⟩

theorem even_pairs_of_palindrome :
    Binary (Word.ofNames ["0", "1", "1", "0"]) ∧
    Even (neighbours "0" "1" (Word.ofNames ["0", "1", "1", "0"]) +
      neighbours "1" "0" (Word.ofNames ["0", "1", "1", "0"])) ∧
    ∃ M, named "even-pairs" = .ok M ∧
      M.accepts (Word.ofNames ["0", "1", "1", "0"]) = true ∧
      M.accepts (Word.ofNames ["0", "1"]) = false ∧
      M.accepts (Word.ofNames ["0", "2", "0"]) = false := by
  obtain ⟨-, -, -, -, -, ⟨M, -, hM, haccepts⟩, heven⟩ := binary_languages_are_exact
  have hbinary : Binary (Word.ofNames ["0", "1", "1", "0"]) := by simp [Binary, Word.ofNames]
  refine ⟨hbinary, (heven _ hbinary).1 rfl, M, hM, (haccepts _).2 ⟨hbinary, rfl⟩, ?_, ?_⟩
  · rw [Bool.eq_false_iff, ne_eq, haccepts]
    exact fun h => absurd h.2 (by decide)
  · rw [Bool.eq_false_iff, ne_eq, haccepts]
    exact fun h => absurd (h.1 (.text "2") (by decide)) (by decide)

end WordAutomata.Language
