import Mathlib.Data.List.Count
import WordAutomata.Language.Named
import WordAutomata.Proofs.Except
import WordAutomata.Proofs.Language.Walk
import WordAutomata.Proofs.Text.Decimal

/-!
# The automaton for walks around a cycle

The arcs belong to the positions: each position has those between it and the position before it, and
those that stay or end there. Behind the names they are the steps of the reader of walks, once each,
also where a position is its own neighbour. At the seam the position before the first one is the
last: an index below zero counts from the end. A cycle without positions has no initial one.
-/
namespace WordAutomata.Language

/-! ## Names -/

theorem Pace.symbol_injective : Function.Injective symbol := by
  intro p p' h
  cases p <;> cases p' <;> first | rfl | exact absurd h (by decide)

def Mark.symbol : Mark → String
  | pace p => p.symbol
  | number n => Text.decimal n

theorem Mark.symbol_injective : Function.Injective symbol := by
  have hpace : ∀ (p : Pace) (n : Nat), Text.decimal n ≠ p.symbol := by
    intro p
    apply Text.decimal_ne
    cases p <;> decide
  intro b c h
  cases b with
  | pace p =>
    cases c with
    | pace p' => rw [Pace.symbol_injective h]
    | number n => exact absurd h.symm (hpace p n)
  | number m =>
    cases c with
    | pace p => exact absurd h (hpace p m)
    | number n => rw [Text.decimal_natCast_injective h]

theorem Mark.symbol_fit (b : Mark) : b.symbol ≠ "" ∧ ',' ∉ b.symbol.toList := by
  cases b with
  | pace p => cases p <;> decide
  | number n => exact ⟨Text.decimal_ne (by decide) n, Text.not_mem_decimal (by decide) (by decide) n⟩

def Place.name : Place → String
  | position i => positionState i
  | arrived => "qf"

theorem toList_positionState (i : Nat) : (positionState i).toList = 'p' :: (Text.decimal i).toList :=
  String.toList_append

theorem positionState_ne_of_head? {i : Nat} {a : String} (h : a.toList.head? ≠ some 'p') :
    positionState i ≠ a := by
  intro he
  rw [← he, toList_positionState] at h
  exact h rfl

theorem Place.name_injective : Function.Injective name := by
  have harrived : ∀ i, positionState i ≠ "qf" := fun i => positionState_ne_of_head? (by decide)
  intro s t h
  cases s with
  | position i =>
    cases t with
    | position j => rw [Int.ofNat.inj (Text.append_decimal_injective "p" h)]
    | arrived => exact absurd h (harrived i)
  | arrived =>
    cases t with
    | position j => exact absurd h.symm (harrived j)
    | arrived => rfl

theorem Place.name_ne_empty (s : Place) : s.name ≠ "" := by
  cases s with
  | position i => exact positionState_ne_of_head? (by decide)
  | arrived => decide

def cycleSpelling : Spelling Place Mark where
  name := Place.name
  symbol := Mark.symbol
  name_injective := Place.name_injective
  symbol_injective := Mark.symbol_injective
  name_ne_empty := Place.name_ne_empty
  symbol_fit := Mark.symbol_fit

/-! ## The plan -/

/-- The steps that belong to a position: the two between it and the position before it, and those in
the position itself. -/
def positionSteps (size i : Nat) : List (Place × Mark × Place) :=
  [(.position ((i + size - 1) % size), .pace .forward, .position i),
    (.position i, .pace .back, .position ((i + size - 1) % size)),
    (.position i, .pace .stay, .position i), (.position i, .number i, .arrived)]

def cyclePlan (size : Nat) : Plan Place Mark where
  states := (List.range size).map .position ++ [.arrived]
  symbols := .pace .back :: .pace .forward :: .pace .stay :: (List.range size).map .number
  arcs := (List.range size).flatMap (positionSteps size)
  initial := .position 0
  finals := [.arrived]

variable {size : Nat} {s t : Place} {b : Mark}

theorem draw_cyclePlan (size : Nat) : (cyclePlan size).draw cycleSpelling = cycle size := by
  simp only [Plan.draw, Plan.map, Plan.diagram, cyclePlan, cycle, cycleSpelling, List.map_append,
    List.map_cons, List.map_flatMap, List.map_map]
  rfl

/-- The steps of all positions are the paces from every position and its number. The pace forward
from a position belongs to the position that it leads to. -/
theorem step_cyclePlan_iff (hsize : 0 < size) :
    (cyclePlan size).Step s b t ↔ Place.Step size s b t := by
  show (s, b, t) ∈ (cyclePlan size).arcs ↔ _
  simp only [cyclePlan, positionSteps, ← moved_back hsize, List.mem_flatMap, List.mem_range,
    List.mem_cons, List.not_mem_nil, or_false, Prod.mk.injEq]
  constructor
  · intro harc
    obtain ⟨i, hi, ⟨rfl, rfl, rfl⟩ | ⟨rfl, rfl, rfl⟩ | ⟨rfl, rfl, rfl⟩ | ⟨rfl, rfl, rfl⟩⟩ := harc
    · have hstep : Place.Step size (.position (moved size i .back)) (.pace .forward) _ :=
        .pace (moved_lt hsize i .back)
      rwa [moved_moved hi rfl] at hstep
    · exact .pace hi
    · have hstep : Place.Step size (.position i) (.pace .stay) _ := .pace hi
      rwa [moved_stay hi] at hstep
    · exact .number hi
  · intro hstep
    cases hstep with
    | @pace i p hi =>
      cases p with
      | forward =>
        have hback : moved size (moved size i .forward) .back = i := moved_moved hi rfl
        exact ⟨moved size i .forward, moved_lt hsize i .forward,
          .inl ⟨by rw [hback], rfl, rfl⟩⟩
      | back => exact ⟨i, hi, .inr (.inl ⟨rfl, rfl, rfl⟩)⟩
      | stay => exact ⟨i, hi, .inr (.inr (.inl ⟨rfl, rfl, by rw [moved_stay hi]⟩))⟩
    | @number i hi => exact ⟨i, hi, .inr (.inr (.inr ⟨rfl, rfl, rfl⟩))⟩

theorem mem_cyclePlan_states : s ∈ (cyclePlan size).states ↔ s.Below size := by
  cases s <;> simp [cyclePlan, Place.Below]

theorem mem_cyclePlan_symbols : b ∈ (cyclePlan size).symbols ↔ b.Below size := by
  cases b with
  | pace p => cases p <;> simp [cyclePlan, Mark.Below]
  | number n => simp [cyclePlan, Mark.Below]

theorem nodup_cyclePlan_states (size : Nat) : (cyclePlan size).states.Nodup := by
  have hposition : ((List.range size).map Place.position).Nodup :=
    List.nodup_range.map fun _ _ => Place.position.inj
  rw [cyclePlan, List.nodup_append]
  refine ⟨hposition, List.nodup_singleton _, ?_⟩
  simp

theorem nodup_cyclePlan_symbols (size : Nat) : (cyclePlan size).symbols.Nodup := by
  have hnumber : ((List.range size).map Mark.number).Nodup :=
    List.nodup_range.map fun _ _ => Mark.number.inj
  simp [cyclePlan, hnumber]

/-- The position that a step with this start and mark belongs to. -/
def owner (size : Nat) : Place × Mark → Nat
  | (.position i, .pace .forward) => moved size i .forward
  | (.position i, _) => i
  | (.arrived, _) => 0

theorem nodup_cyclePlan_keys (hsize : 0 < size) :
    ((cyclePlan size).arcs.map fun arc => (arc.1, arc.2.1)).Nodup := by
  rw [cyclePlan, List.map_flatMap]
  refine nodup_flatMap_of_tag (owner size) List.nodup_range ?_ ?_
  · intro i _
    simp [positionSteps]
  · intro i hi key hkey
    simp only [positionSteps, ← moved_back hsize, List.map_cons, List.map_nil, List.mem_cons,
      List.not_mem_nil, or_false] at hkey
    obtain rfl | rfl | rfl | rfl := hkey
    · exact moved_moved (List.mem_range.1 hi) rfl
    · rfl
    · rfl
    · rfl

theorem fit_cyclePlan (hsize : 0 < size) : (cyclePlan size).Fit where
  states_nodup := nodup_cyclePlan_states size
  symbols_nodup := nodup_cyclePlan_symbols size
  symbols_ne_nil := List.cons_ne_nil _ _
  arcs_nodup := nodup_cyclePlan_keys hsize
  arc_mem := by
    intro s b t harc
    obtain ⟨hs, hb, ht⟩ := ((step_cyclePlan_iff hsize).1 harc).below
    exact ⟨mem_cyclePlan_states.2 hs, mem_cyclePlan_symbols.2 hb, mem_cyclePlan_states.2 ht⟩
  initial_mem := mem_cyclePlan_states.2 hsize
  final_mem := by
    intro s hs
    rw [List.mem_singleton.1 hs]
    exact mem_cyclePlan_states.2 trivial

theorem trail_cyclePlan_iff (hsize : 0 < size) {labels : List Mark} :
    Trail (cyclePlan size).Step (.position 0) labels .arrived ↔
      ∃ walk, labels = walkMarks size walk :=
  (Trail.congr fun _ _ _ => step_cyclePlan_iff hsize).trans (Place.trail_arrived_iff hsize)

/-! ## Positions by index -/

/-- What is found at an index of a list. An index below zero counts from the end. -/
def atIndex? {α : Type} (items : List α) (i : Int) : Option α :=
  if 0 ≤ i then items[i.toNat]?
  else if 0 ≤ i + items.length then items[(i + items.length).toNat]?
  else none

/-- The arcs of a position, if its name, that of the position before it and its number are found. -/
def tryPositionArcs (positions digits : List String) (i : Nat) :
    Option (List (String × String × String)) := do
  let previous ← atIndex? positions (i - 1)
  let here ← atIndex? positions i
  let digit ← atIndex? digits i
  return [(previous, ">", here), (here, "<", previous), (here, "=", here), (here, digit, "qf")]

/-- The walks around a cycle, unless a look-up misses. -/
def tryCycle (size : Int) : Option Diagram := do
  let positions := (List.range size.toNat).map positionState
  let digits := (List.range size.toNat).map fun i : Nat => Text.decimal i
  let arcs ← (List.range size.toNat).mapM (tryPositionArcs positions digits)
  let initial ← atIndex? positions 0
  return .ofNames (positions ++ ["qf"]) ("<" :: ">" :: "=" :: digits) arcs.flatten initial ["qf"]

theorem atIndex?_natCast {α : Type} (items : List α) (i : Nat) :
    atIndex? items i = items[i]? := by
  rw [atIndex?, if_pos (Int.natCast_nonneg i), Int.toNat_natCast]

/-- One before the first index is the last one. -/
theorem atIndex?_pred {α : Type} {items : List α} {i : Nat} (hi : i < items.length) :
    atIndex? items (i - 1) = items[(i + items.length - 1) % items.length]? := by
  cases i with
  | zero =>
    have hlast : ((0 : Nat) - 1 + items.length : Int).toNat = 0 + items.length - 1 := by omega
    rw [atIndex?, if_neg (by omega), if_pos (by omega), hlast, Nat.mod_eq_of_lt (by omega)]
  | succ i =>
    have hpred : ((i + 1 : Nat) - 1 : Int) = i := by omega
    have hwrap : i + 1 + items.length - 1 = i + items.length := by omega
    rw [hpred, atIndex?_natCast, hwrap, Nat.add_mod_right, Nat.mod_eq_of_lt (by omega)]

theorem tryPositionArcs_eq {i : Nat} (hi : i < size) :
    tryPositionArcs ((List.range size).map positionState)
      ((List.range size).map fun i : Nat => Text.decimal i) i = some (positionArcs size i) := by
  have hlength : ((List.range size).map positionState).length = size := by simp
  have hback : (i + size - 1) % size < size := Nat.mod_lt _ (by omega)
  have hi' : i < ((List.range size).map positionState).length := by omega
  have hprevious := atIndex?_pred hi'
  rw [hlength] at hprevious
  simp [tryPositionArcs, hprevious, atIndex?_natCast, hi, hback, positionArcs]

/-- A look-up misses only if there is no position. -/
theorem tryCycle_eq (size : Int) :
    tryCycle size = if size < 1 then none else some (cycle size.toNat) := by
  have harcs := mapM_eq_some_map (f := tryPositionArcs ((List.range size.toNat).map positionState)
      ((List.range size.toNat).map fun i : Nat => Text.decimal i))
    fun i hi => tryPositionArcs_eq (List.mem_range.1 hi)
  by_cases hsize : size < 1
  · have hzero : size.toNat = 0 := by omega
    rw [if_pos hsize, tryCycle, hzero]
    rfl
  · have hinitial : atIndex? ((List.range size.toNat).map positionState) 0 =
        some (positionState 0) := by
      have hpos : 0 < size.toNat := by omega
      have hfirst := atIndex?_natCast ((List.range size.toNat).map positionState) 0
      rw [List.getElem?_map, List.getElem?_range hpos] at hfirst
      exact hfirst
    rw [if_neg hsize, tryCycle]
    simp only [harcs, hinitial]
    rfl

/-! ## The automaton -/

/-- Symbols that are paces are those of a walk. -/
theorem exists_walk {symbols : List String} (h : ∀ a ∈ symbols, a = ">" ∨ a = "<" ∨ a = "=") :
    ∃ walk : List Pace, symbols = walk.map Pace.symbol := by
  induction symbols with
  | nil => exact ⟨[], rfl⟩
  | cons a symbols ih =>
    obtain ⟨ha, hrest⟩ := List.forall_mem_cons.1 h
    obtain ⟨walk, rfl⟩ := ih hrest
    obtain rfl | rfl | rfl := ha
    · exact ⟨.forward :: walk, rfl⟩
    · exact ⟨.back :: walk, rfl⟩
    · exact ⟨.stay :: walk, rfl⟩

theorem Pace.symbol_cases (p : Pace) : p.symbol = ">" ∨ p.symbol = "<" ∨ p.symbol = "=" := by
  cases p <;> decide

/-- The position that a walk leads to, from the symbols of its paces. -/
theorem natCast_reached_eq_count (hsize : 0 < size) (walk : List Pace) :
    (reached size walk : Int) = (((walk.map Pace.symbol).count ">" : Int) -
      (walk.map Pace.symbol).count "<") % size := by
  have hforward : (walk.map Pace.symbol).count ">" = walk.count .forward :=
    List.count_map_of_injective walk Pace.symbol Pace.symbol_injective .forward
  have hback : (walk.map Pace.symbol).count "<" = walk.count .back :=
    List.count_map_of_injective walk Pace.symbol Pace.symbol_injective .back
  rw [natCast_reached hsize, displacement_eq_count, hforward, hback]

/-- The symbols of a walk and of its number. -/
theorem map_symbol_walkMarks (size : Nat) (walk : List Pace) :
    (walkMarks size walk).map Mark.symbol =
      walk.map Pace.symbol ++ [Text.decimal (reached size walk)] := by
  rw [walkMarks, List.map_append, List.map_map]
  rfl

theorem exists_cycleAutomaton (hsize : 0 < size) : ∃ M, cycleAutomaton size = .ok M ∧
    M.size = size + 1 ∧ M.alphabet.size = size + 3 ∧
    ∀ w : Word, M.accepts w = true ↔ ∃ walk : List Pace,
      w = Word.ofNames (walk.map Pace.symbol ++ [Text.decimal (reached size walk)]) := by
  obtain ⟨M, hbuild, hM⟩ := (fit_cyclePlan hsize).exists_realizes cycleSpelling
  rw [draw_cyclePlan] at hbuild
  refine ⟨M, ?_, ?_, ?_, ?_⟩
  · rw [cycleAutomaton, if_neg (by omega), Int.toNat_natCast, Language.build, hbuild]
    rfl
  · rw [hM.size]
    simp [cyclePlan]
  · rw [hM.alphabet_size]
    simp [cyclePlan]
  · intro w
    rw [hM.accepts_iff_trail rfl]
    constructor
    · intro hlabels
      obtain ⟨labels, htrail, rfl⟩ := hlabels
      obtain ⟨walk, rfl⟩ := (trail_cyclePlan_iff hsize).1 htrail
      exact ⟨walk, congrArg Word.ofNames (map_symbol_walkMarks size walk)⟩
    · intro hwalk
      obtain ⟨walk, rfl⟩ := hwalk
      exact ⟨_, (trail_cyclePlan_iff hsize).2 ⟨walk, rfl⟩,
        congrArg Word.ofNames (map_symbol_walkMarks size walk).symm⟩

/-- The automaton for the walks around a cycle has a state for every position and one more, and a
symbol for every position and three more. It accepts the words of any number of paces and one
number, which is that of the paces forward without those back, modulo the size. For a size below
one the look-up of the initial position fails, and no other look-up of a position ever does. -/
theorem cycleAutomaton_reads_walks :
    (∀ size : Nat, 1 ≤ size → ∃ M, cycleAutomaton size = .ok M ∧
      M.size = size + 1 ∧ M.alphabet.size = size + 3 ∧
      ∀ w : Word, M.accepts w = true ↔ ∃ (walk : List String) (r : Nat),
        (∀ a ∈ walk, a = ">" ∨ a = "<" ∨ a = "=") ∧ r < size ∧
        (r : Int) = ((walk.count ">" : Int) - walk.count "<") % size ∧
        w = Word.ofNames (walk ++ [Text.decimal r])) ∧
    (∀ size < 1, cycleAutomaton size = .error .noPositions) ∧
    LanguageError.noPositions.message = "list index out of range" ∧
    ∀ size, cycleAutomaton size = match tryCycle size with
      | none => .error .noPositions
      | some D => Language.build D := by
  refine ⟨?_, ?_, rfl, ?_⟩
  · intro size hsize
    obtain ⟨M, hbuild, hstates, hsymbols, haccepts⟩ := exists_cycleAutomaton hsize
    refine ⟨M, hbuild, hstates, hsymbols, ?_⟩
    intro w
    rw [haccepts]
    constructor
    · intro hwalk
      obtain ⟨walk, hw⟩ := hwalk
      refine ⟨_, _, ?_, reached_lt hsize walk, natCast_reached_eq_count hsize walk, hw⟩
      intro a ha
      obtain ⟨p, -, rfl⟩ := List.mem_map.1 ha
      exact p.symbol_cases
    · intro hwalk
      obtain ⟨symbols, r, hpaces, -, hr, hw⟩ := hwalk
      obtain ⟨walk, rfl⟩ := exists_walk hpaces
      rw [← natCast_reached_eq_count hsize] at hr
      obtain rfl := Int.ofNat.inj hr
      exact ⟨walk, hw⟩
  · intro size hsize
    rw [cycleAutomaton, if_pos hsize]
  · intro size
    rw [cycleAutomaton, tryCycle_eq]
    by_cases hsize : size < 1
    · rw [if_pos hsize, if_pos hsize]
    · rw [if_neg hsize, if_neg hsize]

/-- Back from position 0 is the last position, on a cycle of one it is position 0, and a cycle of
minus one positions has none. -/
theorem seam_is_walked :
    (∃ M, 1 ≤ 3 ∧ cycleAutomaton 3 = .ok M ∧
      M.accepts (Word.ofNames ["<", "=", "2"]) = true) ∧
    (∃ M, 1 ≤ 1 ∧ cycleAutomaton 1 = .ok M ∧ M.accepts (Word.ofNames ["<", "0"]) = true) ∧
    (-1 : Int) < 1 ∧ cycleAutomaton (-1) = .error .noPositions := by
  obtain ⟨hwalks, hnone, -⟩ := cycleAutomaton_reads_walks
  refine ⟨?_, ?_, by decide, hnone (-1) (by decide)⟩
  · obtain ⟨M, hM, -, -, haccepts⟩ := hwalks 3 (by decide)
    exact ⟨M, by decide, hM, (haccepts _).2 ⟨["<", "="], 2, by decide⟩⟩
  · obtain ⟨M, hM, -, -, haccepts⟩ := hwalks 1 (by decide)
    exact ⟨M, by decide, hM, (haccepts _).2 ⟨["<"], 0, by decide⟩⟩

end WordAutomata.Language
