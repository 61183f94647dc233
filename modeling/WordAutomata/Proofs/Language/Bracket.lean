import Mathlib.Algebra.Ring.Nat
import WordAutomata.Language.Named
import WordAutomata.Proofs.Language.Balanced
import WordAutomata.Proofs.Language.Stack

/-!
# The automata for balanced brackets

The states of a bracket language are named after stacks, and no two stacks share a name. Behind the
names a bracket leads from one stack to another exactly where it turns the one into the other within
the bounds. So the automaton accepts the balanced words, and a prefix that it has not rejected has
led to the stack of its open brackets.
-/
namespace WordAutomata.Language

/-! ## The spelling of brackets and stacks -/

theorem toList_closeBracket (a : Int) :
    (closeBracket a).toList = ')' :: (Text.decimal a).toList := by
  rw [closeBracket, String.toList_append]
  rfl

theorem openBracket_ne_closeBracket (a b : Int) : openBracket a ≠ closeBracket b := by
  intro h
  have hchars := congrArg String.toList h
  rw [toList_openBracket, toList_closeBracket] at hchars
  exact absurd (List.cons.inj hchars).1 (by decide)

def Bracket.symbol : Bracket → String
  | opening a => openBracket a
  | closing a => closeBracket a

theorem Bracket.symbol_injective : Function.Injective symbol := by
  intro b c h
  cases b with
  | opening a =>
    cases c with
    | opening a' => rw [Int.ofNat.inj (Text.append_decimal_injective "(" h)]
    | closing a' => exact absurd h (openBracket_ne_closeBracket a a')
  | closing a =>
    cases c with
    | opening a' => exact absurd h.symm (openBracket_ne_closeBracket a' a)
    | closing a' => rw [Int.ofNat.inj (Text.append_decimal_injective ")" h)]

theorem Bracket.symbol_fit (b : Bracket) : b.symbol ≠ "" ∧ ',' ∉ b.symbol.toList := by
  have hcomma : ∀ a : Int, ',' ∉ (Text.decimal a).toList :=
    Text.not_mem_decimal (by decide) (by decide)
  have hne : b.symbol.toList ≠ [] := by
    cases b <;> simp [symbol, toList_openBracket, toList_closeBracket]
  refine ⟨fun h => hne (by rw [h]; rfl), ?_⟩
  cases b <;> simp [symbol, toList_openBracket, toList_closeBracket, hcomma]

def bracketSpelling : Spelling (List Nat) Bracket where
  name := kindState
  symbol := Bracket.symbol
  name_injective := kindState_injective
  symbol_injective := Bracket.symbol_injective
  name_ne_empty := kindState_ne_empty
  symbol_fit := Bracket.symbol_fit

/-! ## The plan -/

/-- The steps that open a bracket, where the depth allows another one. -/
def openSteps (kinds depth : Nat) (stack : List Nat) : List (List Nat × Bracket × List Nat) :=
  if stack.length < depth then
    (List.range kinds).map fun a => (stack, .opening a, stack ++ [a])
  else []

/-- The steps that close the innermost bracket, if one is open. -/
def closeSteps (stack : List Nat) : List (List Nat × Bracket × List Nat) :=
  match stack.getLast? with
  | none => []
  | some a => [(stack, .closing a, stack.dropLast)]

def bracketPlan (kinds depth : Nat) : Plan (List Nat) Bracket where
  states := stacksUpTo kinds depth
  symbols := (List.range kinds).flatMap fun a => [.opening a, .closing a]
  arcs := (stacksUpTo kinds depth).flatMap fun s => openSteps kinds depth s ++ closeSteps s
  initial := []
  finals := [[]]

variable {kinds depth height : Nat} {s t stack : List Nat} {b : Bracket}

theorem draw_bracketPlan (kinds depth : Nat) :
    (bracketPlan kinds depth).draw bracketSpelling = brackets kinds depth := by
  have harcs : ∀ stack, (openSteps kinds depth stack ++ closeSteps stack).map
      (fun (s, b, t) => (kindState s, b.symbol, kindState t)) =
        openArcs kinds depth stack ++ closeArcs stack := by
    intro stack
    rw [List.map_append]
    congr 1
    · rw [openSteps, openArcs]
      split
      · rw [List.map_map]
        rfl
      · rfl
    · rw [closeSteps, closeArcs]
      cases stack.getLast? <;> rfl
  simp only [Plan.draw, Plan.map, Plan.diagram, bracketPlan, brackets, bracketSpelling,
    List.map_flatMap, harcs]
  rfl

theorem mem_stacksOfHeight : stack ∈ stacksOfHeight kinds height ↔
    stack.length = height ∧ ∀ a ∈ stack, a < kinds := by
  induction height generalizing stack with
  | zero =>
    rw [stacksOfHeight, List.mem_singleton, List.length_eq_zero_iff]
    constructor
    · intro h
      rw [h]
      simp
    · exact And.left
  | succ height ih =>
    simp only [stacksOfHeight, List.mem_flatMap, List.mem_range, List.mem_map]
    constructor
    · rintro ⟨a, ha, rest, hrest, rfl⟩
      obtain ⟨hlen, hkinds⟩ := ih.1 hrest
      refine ⟨by rw [List.length_cons, hlen], ?_⟩
      intro b hb
      rcases List.mem_cons.1 hb with rfl | hb
      · exact ha
      · exact hkinds b hb
    · rintro ⟨hlen, hkinds⟩
      cases stack with
      | nil => cases hlen
      | cons a rest =>
        have hrest := ih.2 ⟨Nat.succ.inj hlen, fun b hb => hkinds b (List.mem_cons_of_mem _ hb)⟩
        exact ⟨a, hkinds a List.mem_cons_self, rest, hrest, rfl⟩

theorem mem_stacksUpTo : stack ∈ stacksUpTo kinds depth ↔ Within kinds depth stack := by
  simp only [stacksUpTo, List.mem_flatMap, List.mem_range, mem_stacksOfHeight]
  constructor
  · rintro ⟨height, hheight, rfl, hkinds⟩
    exact ⟨Nat.le_of_lt_succ hheight, hkinds⟩
  · rintro ⟨hlen, hkinds⟩
    exact ⟨stack.length, Nat.lt_succ_of_le hlen, rfl, hkinds⟩

theorem nodup_stacksOfHeight (kinds height : Nat) : (stacksOfHeight kinds height).Nodup := by
  induction height with
  | zero => exact List.nodup_singleton _
  | succ height ih =>
    refine nodup_flatMap_of_tag (·.headD 0) List.nodup_range ?_ ?_
    · intro a _
      exact ih.map (List.cons_injective)
    · intro a _ s hs
      obtain ⟨rest, -, rfl⟩ := List.mem_map.1 hs
      rfl

theorem nodup_stacksUpTo (kinds depth : Nat) : (stacksUpTo kinds depth).Nodup :=
  nodup_flatMap_of_tag List.length List.nodup_range
    (fun height _ => nodup_stacksOfHeight kinds height)
    fun _ _ _ hs => (mem_stacksOfHeight.1 hs).1

theorem length_stacksOfHeight (kinds height : Nat) :
    (stacksOfHeight kinds height).length = kinds ^ height := by
  induction height with
  | zero => rfl
  | succ height ih =>
    simp only [stacksOfHeight, List.length_flatMap, List.length_map, ih, List.map_const',
      List.length_range, List.sum_replicate_nat]
    exact (Nat.pow_succ').symm

theorem length_stacksUpTo (kinds depth : Nat) :
    (stacksUpTo kinds depth).length = ((List.range (depth + 1)).map (kinds ^ ·)).sum := by
  simp only [stacksUpTo, List.length_flatMap, length_stacksOfHeight]

theorem mem_openSteps : (s, b, t) ∈ openSteps kinds depth stack ↔
    s = stack ∧ stack.length < depth ∧ ∃ a < kinds, b = .opening a ∧ t = stack ++ [a] := by
  rw [openSteps]
  by_cases hroom : stack.length < depth
  · rw [if_pos hroom]
    simp only [List.mem_map, List.mem_range, Prod.mk.injEq, hroom, true_and]
    constructor
    · rintro ⟨a, ha, rfl, rfl, rfl⟩
      exact ⟨rfl, a, ha, rfl, rfl⟩
    · rintro ⟨rfl, a, ha, rfl, rfl⟩
      exact ⟨a, ha, rfl, rfl, rfl⟩
  · simp [hroom]

theorem mem_closeSteps : (s, b, t) ∈ closeSteps stack ↔
    s = stack ∧ ∃ a, b = .closing a ∧ stack = t ++ [a] := by
  rw [closeSteps]
  cases hlast : stack.getLast? with
  | none =>
    rw [List.getLast?_eq_none_iff] at hlast
    simp [hlast]
  | some c =>
    obtain ⟨rest, rfl⟩ := List.getLast?_eq_some_iff.1 hlast
    simp only [List.mem_singleton, Prod.mk.injEq, List.dropLast_concat]
    constructor
    · rintro ⟨rfl, rfl, rfl⟩
      exact ⟨rfl, c, rfl, rfl⟩
    · rintro ⟨rfl, a, rfl, hrest⟩
      obtain ⟨rfl, hc⟩ := List.append_inj' hrest rfl
      cases hc
      exact ⟨rfl, rfl, rfl⟩

theorem step_bracketPlan_iff :
    (bracketPlan kinds depth).Step s b t ↔ Bracket.Step kinds depth s b t := by
  show (s, b, t) ∈ (bracketPlan kinds depth).arcs ↔ _
  simp only [bracketPlan, List.mem_flatMap, List.mem_append, mem_stacksUpTo, mem_openSteps,
    mem_closeSteps]
  constructor
  · rintro ⟨stack, hs, ⟨rfl, hroom, a, ha, rfl, rfl⟩ | ⟨rfl, a, rfl, rfl⟩⟩
    · exact ⟨.opening, hs, within_append_iff.2 ⟨hs, hroom, ha⟩⟩
    · exact ⟨.closing, hs, (within_append_iff.1 hs).1⟩
  · rintro ⟨hturn, hs, ht⟩
    refine ⟨s, hs, ?_⟩
    cases hturn with
    | @opening _ a =>
      obtain ⟨-, hroom, ha⟩ := within_append_iff.1 ht
      exact .inl ⟨rfl, hroom, a, ha, rfl, rfl⟩
    | @closing _ a => exact .inr ⟨rfl, a, rfl, rfl⟩

theorem mem_bracketPlan_symbols : b ∈ (bracketPlan kinds depth).symbols ↔ b.kind < kinds := by
  simp only [bracketPlan, List.mem_flatMap, List.mem_range, List.mem_cons, List.not_mem_nil,
    or_false]
  constructor
  · rintro ⟨a, ha, rfl | rfl⟩
    · exact ha
    · exact ha
  · intro hb
    cases b with
    | opening a => exact ⟨a, hb, .inl rfl⟩
    | closing a => exact ⟨a, hb, .inr rfl⟩

theorem nodup_bracketPlan_keys (kinds depth : Nat) (stack : List Nat) :
    ((openSteps kinds depth stack ++ closeSteps stack).map fun arc => (arc.1, arc.2.1)).Nodup := by
  rw [List.map_append, List.nodup_append]
  refine ⟨?_, ?_, ?_⟩
  · rw [openSteps]
    split
    · rw [List.map_map]
      refine List.nodup_range.map ?_
      intro a a' h
      cases h
      rfl
    · exact List.nodup_nil
  · rw [closeSteps]
    split
    · exact List.nodup_nil
    · exact List.nodup_singleton _
  · -- an opening bracket is no closing one
    rintro key hopen key' hclose rfl
    obtain ⟨⟨s, b, t⟩, hs, rfl⟩ := List.mem_map.1 hopen
    obtain ⟨⟨s', b', t'⟩, hs', he⟩ := List.mem_map.1 hclose
    obtain ⟨-, -, a, -, rfl, -⟩ := mem_openSteps.1 hs
    obtain ⟨-, a', rfl, -⟩ := mem_closeSteps.1 hs'
    cases he

theorem fit_bracketPlan (hkinds : 1 ≤ kinds) (depth : Nat) : (bracketPlan kinds depth).Fit where
  states_nodup := nodup_stacksUpTo kinds depth
  symbols_nodup := by
    refine nodup_flatMap_of_tag Bracket.kind List.nodup_range ?_ ?_
    · intro a _
      simp
    · intro a _ b hb
      simp only [List.mem_cons, List.not_mem_nil, or_false] at hb
      rcases hb with rfl | rfl
      · rfl
      · rfl
  symbols_ne_nil := by
    have hzero : Bracket.opening 0 ∈ (bracketPlan kinds depth).symbols := mem_bracketPlan_symbols.2 hkinds
    exact List.ne_nil_of_mem hzero
  arcs_nodup := by
    rw [bracketPlan, List.map_flatMap]
    refine nodup_flatMap_of_tag Prod.fst (nodup_stacksUpTo kinds depth)
      (fun stack _ => nodup_bracketPlan_keys kinds depth stack) ?_
    intro stack _ key hkey
    obtain ⟨⟨s, b, t⟩, hs, rfl⟩ := List.mem_map.1 hkey
    rcases List.mem_append.1 hs with hs | hs
    · exact (mem_openSteps.1 hs).1
    · exact (mem_closeSteps.1 hs).1
  arc_mem := by
    intro s b t harc
    have hstep : Bracket.Step kinds depth s b t := step_bracketPlan_iff.1 harc
    obtain ⟨hturn, hs, ht⟩ := hstep
    refine ⟨mem_stacksUpTo.2 hs, mem_bracketPlan_symbols.2 ?_, mem_stacksUpTo.2 ht⟩
    cases hturn with
    | opening => exact (within_append_iff.1 ht).2.2
    | closing => exact (within_append_iff.1 hs).2.2
  initial_mem := mem_stacksUpTo.2 within_nil
  final_mem := by
    intro q hq
    rw [List.mem_singleton.1 hq]
    exact mem_stacksUpTo.2 within_nil

theorem trail_bracketPlan_iff {labels : List Bracket} :
    Trail (bracketPlan kinds depth).Step [] labels stack ↔
      (∀ b ∈ labels, b.kind < kinds) ∧ Unclosed depth stack labels :=
  (Trail.congr fun _ _ _ => step_bracketPlan_iff).trans trail_iff_unclosed

/-! ## The language -/

/-- For every number of kinds and every depth there is an automaton, if there are kinds at all. Its
states are the stacks within the bounds, it accepts the balanced words, and the states that a run
visits are named after the brackets that are open there. -/
theorem bracketAutomaton_reads_balanced_words :
    (∀ kinds depth : Int, kinds < 1 ∨ depth < 0 →
      bracketAutomaton kinds depth = .error (.badBrackets kinds depth)) ∧
    ∀ kinds depth : Nat, 1 ≤ kinds → ∃ M, bracketAutomaton kinds depth = .ok M ∧
      M.size = ((List.range (depth + 1)).map (kinds ^ ·)).sum ∧
      M.alphabet.size = 2 * kinds ∧
      (∀ w : Word, M.accepts w = true ↔ ∃ bs : List Bracket,
        w = Word.ofNames (bs.map Bracket.symbol) ∧
        (∀ b ∈ bs, b.kind < kinds) ∧ Balanced depth bs) ∧
      ∀ (w : Word) (n : Nat) (q : String), (Run.start M w).finish.path[n]? = some q ↔
        n ≤ w.length ∧ ∃ (bs : List Bracket) (stack : List Nat),
          w.take n = Word.ofNames (bs.map Bracket.symbol) ∧
          (∀ b ∈ bs, b.kind < kinds) ∧ Unclosed depth stack bs ∧
          q = kindState stack := by
  refine ⟨fun kinds depth hbad => if_pos hbad, ?_⟩
  intro kinds depth hkinds
  obtain ⟨M, hbuild, hM⟩ := (fit_bracketPlan hkinds depth).exists_realizes bracketSpelling
  rw [draw_bracketPlan] at hbuild
  refine ⟨M, ?_, ?_, ?_, ?_, ?_⟩
  · rw [bracketAutomaton, if_neg (by omega), Language.build]
    show (brackets kinds depth).build.mapError LanguageError.diagram = _
    rw [hbuild]
    rfl
  · exact hM.size.trans (length_stacksUpTo kinds depth)
  · rw [hM.alphabet_size]
    simp [bracketPlan, List.length_flatMap, Nat.mul_comm]
  · intro w
    rw [hM.accepts_iff_trail rfl]
    constructor
    · rintro ⟨labels, htrail, hw⟩
      obtain ⟨hlabels, hclosed⟩ := trail_bracketPlan_iff.1 htrail
      exact ⟨labels, hw, hlabels, unclosed_nil_iff.1 hclosed⟩
    · rintro ⟨labels, hw, hlabels, hbalanced⟩
      exact ⟨labels, trail_bracketPlan_iff.2 ⟨hlabels, .balanced hbalanced⟩, hw⟩
  · intro w n q
    rw [hM.path_iff]
    refine and_congr_right fun _ => ?_
    constructor
    · rintro ⟨labels, t, htrail, hw, hq⟩
      obtain ⟨hlabels, hopen⟩ := trail_bracketPlan_iff.1 htrail
      exact ⟨labels, t, hw, hlabels, hopen, hq⟩
    · rintro ⟨labels, t, hw, hlabels, hopen, hq⟩
      exact ⟨labels, t, trail_bracketPlan_iff.2 ⟨hlabels, hopen⟩, hw, hq⟩

theorem twelve_kinds_read_balanced_words :
    bracketAutomaton 0 2 = .error (.badBrackets 0 2) ∧
    ∃ M, bracketAutomaton 12 2 = .ok M ∧ M.size = 157 ∧ M.alphabet.size = 24 ∧
      M.accepts (Word.ofNames ["(11", "(0", ")0", ")11"]) = true ∧
      (Run.start M (Word.ofNames ["(11", "(0", ")0", ")11"])).finish.path[2]? =
        some "(11 (0" := by
  refine ⟨bracketAutomaton_reads_balanced_words.1 0 2 (by decide), ?_⟩
  obtain ⟨M, hM, hsize, hsymbols, haccepts, hpath⟩ :=
    bracketAutomaton_reads_balanced_words.2 12 2 (by decide)
  refine ⟨M, hM, hsize.trans (by decide), hsymbols, (haccepts _).2 ?_, (hpath _ 2 _).2 ?_⟩
  · have hinner : Balanced 1 (.opening 0 :: [] ++ .closing 0 :: []) := .pair .nil .nil
    have hword : Balanced 2 (.opening 11 :: [.opening 0, .closing 0] ++ .closing 11 :: []) :=
      .pair hinner .nil
    exact ⟨_, by decide, by decide, hword⟩
  · have hinner : Unclosed 1 [0] ([] ++ .opening 0 :: []) := .opening .nil (.balanced .nil)
    have hprefix : Unclosed 2 [11, 0] ([] ++ .opening 11 :: [.opening 0]) := .opening .nil hinner
    exact ⟨by decide, _, _, by decide, by decide, hprefix, by decide⟩

end WordAutomata.Language
