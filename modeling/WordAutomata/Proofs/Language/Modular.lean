import WordAutomata.Language.Named
import WordAutomata.Proofs.Language.Equation
import WordAutomata.Proofs.Text.Decimal

/-!
# The automaton for modular arithmetic

What a reader of equations remembers is named in four ways, which the first character of a name
tells apart from one another and from the names of the first and the last state. Behind the names
the arcs are the steps of the reader. So for every modulus the automaton accepts the correct
equations.
-/
namespace WordAutomata.Language

/-! ## Names -/

theorem Operator.symbol_injective : Function.Injective symbol := by
  intro op op' h
  cases op <;> cases op' <;> first | rfl | exact absurd h (by decide)

def Token.symbol : Token → String
  | number n => Text.decimal n
  | operator op => op.symbol
  | equals => "="

theorem Token.symbol_injective : Function.Injective symbol := by
  have hoperator : ∀ (op : Operator) (n : Nat), Text.decimal n ≠ op.symbol := by
    intro op
    apply Text.decimal_ne
    cases op <;> decide
  have hequals : ∀ n : Nat, Text.decimal n ≠ "=" := Text.decimal_ne (by decide)
  have hsign : ∀ op : Operator, op.symbol ≠ "=" := by
    intro op
    cases op <;> decide
  intro b c h
  cases b with
  | number m =>
    cases c with
    | number n => rw [Text.decimal_natCast_injective h]
    | operator op => exact absurd h (hoperator op m)
    | equals => exact absurd h (hequals m)
  | operator op =>
    cases c with
    | number n => exact absurd h.symm (hoperator op n)
    | operator op' => rw [Operator.symbol_injective h]
    | equals => exact absurd h (hsign op)
  | equals =>
    cases c with
    | number n => exact absurd h.symm (hequals n)
    | operator op => exact absurd h.symm (hsign op)
    | equals => rfl

theorem Token.symbol_fit (b : Token) : b.symbol ≠ "" ∧ ',' ∉ b.symbol.toList := by
  cases b with
  | number n => exact ⟨Text.decimal_ne (by decide) n, Text.not_mem_decimal (by decide) (by decide) n⟩
  | operator op => cases op <;> decide
  | equals => decide

def Reading.name : Reading → String
  | start => "q0"
  | value i => valueState i
  | pending i op => pendingState i op
  | check i => checkState i
  | correct => "q_final"

/-- Which kind of thing is remembered under a name with these characters. -/
def kindOfName (name : List Char) : Nat :=
  if name = ['q', '0'] then 0
  else if name.head? = some 'n' then 1
  else if name.head? = some '=' then 3
  else if name.head? = some 'q' then 4
  else 2

theorem toList_valueState (i : Nat) : (valueState i).toList = 'n' :: (Text.decimal i).toList :=
  String.toList_append

theorem toList_checkState (i : Nat) : (checkState i).toList = '=' :: (Text.decimal i).toList :=
  String.toList_append

theorem toList_pendingState (i : Nat) (op : Operator) :
    (pendingState i op).toList = (Text.decimal i).toList ++ op.symbol.toList :=
  String.toList_append

theorem kindOfName_name (s : Reading) : kindOfName s.name.toList = s.ctorIdx := by
  cases s with
  | start => decide
  | value i =>
    rw [Reading.name, toList_valueState]
    simp [kindOfName, Reading.ctorIdx]
  | pending i op =>
    obtain ⟨c, digits, hchars, hdigit⟩ := Text.exists_toList_decimal i
    have hne : ∀ d : Char, d.isDigit = false → c ≠ d := by
      rintro d hd rfl
      rw [hd] at hdigit
      cases hdigit
    rw [Reading.name, toList_pendingState, hchars]
    simp [kindOfName, Reading.ctorIdx, hne 'q' (by decide), hne 'n' (by decide),
      hne '=' (by decide)]
  | check i =>
    rw [Reading.name, toList_checkState]
    simp [kindOfName, Reading.ctorIdx]
  | correct => decide

theorem pendingState_injective {i j : Nat} {op op' : Operator}
    (h : pendingState i op = pendingState j op') : i = j ∧ op = op' := by
  have hlength : ∀ op : Operator, op.symbol.toList.length = 1 := by
    intro op
    cases op <;> rfl
  have hchars := congrArg String.toList h
  rw [toList_pendingState, toList_pendingState] at hchars
  obtain ⟨hdigits, hsymbol⟩ := List.append_inj' hchars ((hlength op).trans (hlength op').symm)
  exact ⟨Text.decimal_natCast_injective (String.toList_injective hdigits),
    Operator.symbol_injective (String.toList_injective hsymbol)⟩

theorem Reading.name_injective : Function.Injective name := by
  intro s t h
  have hkind : s.ctorIdx = t.ctorIdx := by
    rw [← kindOfName_name, ← kindOfName_name, h]
  cases s with
  | start =>
    cases t with
    | start => rfl
    | _ => cases hkind
  | value i =>
    cases t with
    | value j => rw [Int.ofNat.inj (Text.append_decimal_injective "n" h)]
    | _ => cases hkind
  | pending i op =>
    cases t with
    | pending j op' =>
      obtain ⟨rfl, rfl⟩ := pendingState_injective h
      rfl
    | _ => cases hkind
  | check i =>
    cases t with
    | check j => rw [Int.ofNat.inj (Text.append_decimal_injective "=" h)]
    | _ => cases hkind
  | correct =>
    cases t with
    | correct => rfl
    | _ => cases hkind

theorem Reading.name_ne_empty (s : Reading) : s.name ≠ "" := by
  intro h
  have hchars : s.name.toList = [] := by
    rw [h]
    rfl
  cases s with
  | start => cases hchars
  | value i =>
    rw [Reading.name, toList_valueState] at hchars
    cases hchars
  | pending i op =>
    rw [Reading.name, toList_pendingState] at hchars
    have hdigits : (Text.decimal i).toList = [] := (List.append_eq_nil_iff.1 hchars).1
    exact Text.decimal_ne (a := "") (by decide) i (String.toList_injective hdigits)
  | check i =>
    rw [Reading.name, toList_checkState] at hchars
    cases hchars
  | correct => cases hchars

def modularSpelling : Spelling Reading Token where
  name := Reading.name
  symbol := Token.symbol
  name_injective := Reading.name_injective
  symbol_injective := Token.symbol_injective
  name_ne_empty := Reading.name_ne_empty
  symbol_fit := Token.symbol_fit

/-! ## The plan -/

/-- The steps of a value and an operator. -/
def operatorSteps (modulus i : Nat) (op : Operator) : List (Reading × Token × Reading) :=
  (.value i, .operator op, .pending i op) ::
    (List.range modulus).map fun x =>
      (.pending i op, .number x, .value (applyModulo modulus op i x))

/-- The steps that compare a value. -/
def checkSteps (i : Nat) : List (Reading × Token × Reading) :=
  [(.value i, .equals, .check i), (.check i, .number i, .correct)]

def modularPlan (modulus : Nat) : Plan Reading Token where
  states := .start :: (List.range modulus).map .value ++
    (List.range modulus).flatMap (fun i => Operator.all.map (.pending i)) ++
    (List.range modulus).map .check ++ [.correct]
  symbols := (List.range modulus).map .number ++ Operator.all.map .operator ++ [.equals]
  arcs := (List.range modulus).map (fun i => (.start, .number i, .value i)) ++
    (List.range modulus).flatMap (fun i => Operator.all.flatMap (operatorSteps modulus i)) ++
    (List.range modulus).flatMap checkSteps
  initial := .start
  finals := [.correct]

variable {modulus : Nat} {s t : Reading} {b : Token}

theorem draw_modularPlan (modulus : Nat) :
    (modularPlan modulus).draw modularSpelling = modular modulus := by
  have hoperator : ∀ i op, (operatorSteps modulus i op).map
      (fun (s, b, t) => (s.name, b.symbol, t.name)) = operatorArcs modulus i op := by
    intro i op
    rw [operatorSteps, operatorArcs, List.map_cons, List.map_map]
    rfl
  simp only [Plan.draw, Plan.map, Plan.diagram, modularPlan, modular, modularSpelling,
    List.map_append, List.map_cons, List.map_flatMap, List.map_map, hoperator]
  rfl

theorem Operator.mem_all (op : Operator) : op ∈ all := by
  cases op <;> decide

theorem step_modularPlan_iff :
    (modularPlan modulus).Step s b t ↔ Reading.Step modulus s b t := by
  show (s, b, t) ∈ (modularPlan modulus).arcs ↔ _
  simp only [modularPlan, operatorSteps, checkSteps, List.mem_append, List.mem_flatMap,
    List.mem_map, List.mem_range, List.mem_cons, List.not_mem_nil, or_false, Prod.mk.injEq,
    Operator.mem_all, true_and]
  constructor
  · rintro ((⟨i, hi, rfl, rfl, rfl⟩ | ⟨i, hi, op, ⟨rfl, rfl, rfl⟩ | ⟨x, hx, rfl, rfl, rfl⟩⟩) |
      ⟨i, hi, ⟨rfl, rfl, rfl⟩ | ⟨rfl, rfl, rfl⟩⟩)
    · exact .first hi
    · exact .operator hi
    · exact .operand hi hx
    · exact .equals hi
    · exact .result hi
  · intro hstep
    cases hstep with
    | @first i hi => exact .inl (.inl ⟨i, hi, rfl, rfl, rfl⟩)
    | @operator i op hi => exact .inl (.inr ⟨i, hi, op, .inl ⟨rfl, rfl, rfl⟩⟩)
    | @operand i op y hi hy => exact .inl (.inr ⟨i, hi, op, .inr ⟨y, hy, rfl, rfl, rfl⟩⟩)
    | @equals i hi => exact .inr ⟨i, hi, .inl ⟨rfl, rfl, rfl⟩⟩
    | @result i hi => exact .inr ⟨i, hi, .inr ⟨rfl, rfl, rfl⟩⟩

/-- The number that something remembered begins with. -/
def Reading.number : Reading → Nat
  | value i => i
  | pending i _ => i
  | check i => i
  | _ => 0

/-- The operator of a step from a value or to one. -/
def operatorOf : Reading × Token → Operator
  | (.pending _ op, _) => op
  | (_, .operator op) => op
  | _ => .add

theorem Operator.nodup_all : all.Nodup := by decide

theorem mem_modularPlan_states : s ∈ (modularPlan modulus).states ↔ s.Below modulus := by
  cases s <;> simp [modularPlan, Reading.Below, Operator.mem_all]

theorem mem_modularPlan_symbols : b ∈ (modularPlan modulus).symbols ↔ b.Below modulus := by
  cases b <;> simp [modularPlan, Token.Below, Operator.mem_all]

theorem nodup_modularPlan_states (modulus : Nat) : (modularPlan modulus).states.Nodup := by
  have hvalue : ((List.range modulus).map Reading.value).Nodup :=
    List.nodup_range.map fun _ _ => Reading.value.inj
  have hcheck : ((List.range modulus).map Reading.check).Nodup :=
    List.nodup_range.map fun _ _ => Reading.check.inj
  have hpending : ((List.range modulus).flatMap fun i =>
      Operator.all.map (Reading.pending i)).Nodup := by
    refine nodup_flatMap_of_tag Reading.number List.nodup_range ?_ ?_
    · intro i _
      exact Operator.nodup_all.map fun _ _ h => (Reading.pending.inj h).2
    · intro i _ s hs
      obtain ⟨op, -, rfl⟩ := List.mem_map.1 hs
      rfl
  simp only [modularPlan, List.nodup_append, List.nodup_cons, List.mem_append, List.mem_cons,
    List.mem_flatMap, List.mem_map, hvalue, hpending, hcheck, List.nodup_nil, List.not_mem_nil]
  grind

theorem nodup_operatorSteps_keys (modulus i : Nat) (op : Operator) :
    ((operatorSteps modulus i op).map fun arc => (arc.1, arc.2.1)).Nodup := by
  rw [operatorSteps, List.map_cons, List.map_map, List.nodup_cons]
  constructor
  · simp
  · refine List.nodup_range.map ?_
    intro x y h
    cases h
    rfl

theorem eq_of_mem_operatorSteps_keys {i : Nat} {op : Operator} {key : Reading × Token}
    (h : key ∈ (operatorSteps modulus i op).map fun arc => (arc.1, arc.2.1)) :
    operatorOf key = op ∧ key.1.number = i := by
  simp only [operatorSteps, List.map_cons, List.map_map, List.mem_cons, List.mem_map] at h
  obtain rfl | ⟨x, -, rfl⟩ := h
  · exact ⟨rfl, rfl⟩
  · exact ⟨rfl, rfl⟩

theorem nodup_modularPlan_keys (modulus : Nat) :
    ((modularPlan modulus).arcs.map fun arc => (arc.1, arc.2.1)).Nodup := by
  have hfirst : ((List.range modulus).map fun i => (Reading.start, Token.number i)).Nodup :=
    List.nodup_range.map fun _ _ h => Token.number.inj (Prod.mk.inj h).2
  have hoperator : ((List.range modulus).flatMap fun i => Operator.all.flatMap fun op =>
      (operatorSteps modulus i op).map fun arc => (arc.1, arc.2.1)).Nodup := by
    refine nodup_flatMap_of_tag (fun key => key.1.number) List.nodup_range ?_ ?_
    · intro i _
      exact nodup_flatMap_of_tag operatorOf Operator.nodup_all
        (fun op _ => nodup_operatorSteps_keys modulus i op)
        fun _ _ _ hkey => (eq_of_mem_operatorSteps_keys hkey).1
    · intro i _ key hkey
      obtain ⟨op, -, hkey⟩ := List.mem_flatMap.1 hkey
      exact (eq_of_mem_operatorSteps_keys hkey).2
  have hcheck : ((List.range modulus).flatMap fun i =>
      (checkSteps i).map fun arc => (arc.1, arc.2.1)).Nodup := by
    refine nodup_flatMap_of_tag (fun key => key.1.number) List.nodup_range ?_ ?_
    · intro i _
      simp [checkSteps]
    · intro i _ key hkey
      simp only [checkSteps, List.map_cons, List.map_nil, List.mem_cons, List.not_mem_nil,
        or_false] at hkey
      obtain rfl | rfl := hkey
      · rfl
      · rfl
  -- The three groups are told apart by the state in front and by the token.
  simp only [modularPlan, List.map_append, List.map_map, List.map_flatMap, List.nodup_append]
  refine ⟨⟨hfirst, hoperator, ?_⟩, hcheck, ?_⟩
  · simp only [operatorSteps, List.mem_flatMap, List.mem_map, List.map_cons, List.map_map,
      List.mem_cons]
    grind
  · simp only [operatorSteps, checkSteps, List.mem_append, List.mem_flatMap, List.mem_map,
      List.map_cons, List.map_map, List.mem_cons]
    grind

theorem nodup_modularPlan_symbols (modulus : Nat) : (modularPlan modulus).symbols.Nodup := by
  have hnumber : ((List.range modulus).map Token.number).Nodup :=
    List.nodup_range.map fun _ _ => Token.number.inj
  have hoperator : (Operator.all.map Token.operator).Nodup :=
    Operator.nodup_all.map fun _ _ => Token.operator.inj
  simp only [modularPlan, List.nodup_append, List.mem_append, List.mem_map, hnumber, hoperator,
    List.nodup_singleton, List.mem_singleton]
  grind

theorem fit_modularPlan (modulus : Nat) : (modularPlan modulus).Fit where
  states_nodup := nodup_modularPlan_states modulus
  symbols_nodup := nodup_modularPlan_symbols modulus
  symbols_ne_nil := by
    have hequals : Token.equals ∈ (modularPlan modulus).symbols :=
      mem_modularPlan_symbols.2 trivial
    exact List.ne_nil_of_mem hequals
  arcs_nodup := nodup_modularPlan_keys modulus
  arc_mem := by
    intro s b t harc
    obtain ⟨hs, hb, ht⟩ := (step_modularPlan_iff.1 harc).below
    exact ⟨mem_modularPlan_states.2 hs, mem_modularPlan_symbols.2 hb, mem_modularPlan_states.2 ht⟩
  initial_mem := mem_modularPlan_states.2 trivial
  final_mem := by
    intro s hs
    rw [List.mem_singleton.1 hs]
    exact mem_modularPlan_states.2 trivial

theorem trail_modularPlan_iff {labels : List Token} :
    Trail (modularPlan modulus).Step .start labels .correct ↔
      ∃ e : Expression, e.Within modulus ∧
        labels = e.equation (e.remainder modulus) :=
  (Trail.congr fun _ _ _ => step_modularPlan_iff).trans Reading.trail_correct_iff

/-! ## The language -/

theorem exists_modularAutomaton (modulus : Int) : ∃ M, modularAutomaton modulus = .ok M ∧
    ∀ w : Word, M.accepts w = true ↔ ∃ e : Expression, e.Within modulus.toNat ∧
      w = Word.ofNames ((e.equation (e.remainder modulus.toNat)).map Token.symbol) := by
  obtain ⟨M, hbuild, hM⟩ := (fit_modularPlan modulus.toNat).exists_realizes modularSpelling
  rw [draw_modularPlan] at hbuild
  refine ⟨M, ?_, ?_⟩
  · rw [modularAutomaton, Language.build, hbuild]
    rfl
  · intro w
    rw [hM.accepts_iff_trail rfl]
    constructor
    · rintro ⟨labels, htrail, rfl⟩
      obtain ⟨e, he, rfl⟩ := trail_modularPlan_iff.1 htrail
      exact ⟨e, he, rfl⟩
    · rintro ⟨e, he, rfl⟩
      exact ⟨_, trail_modularPlan_iff.2 ⟨e, he, rfl⟩, rfl⟩

/-- For every modulus there is an automaton. It accepts the correct equations between an expression
and the remainder of its value, of which there are none without a positive modulus. -/
theorem modularAutomaton_reads_correct_equations :
    (∀ modulus : Nat, 1 ≤ modulus → ∃ M, modularAutomaton modulus = .ok M ∧
      ∀ w : Word, M.accepts w = true ↔ ∃ (e : Expression) (r : Nat),
        e.Within modulus ∧ r < modulus ∧ (r : Int) = e.value % modulus ∧
        w = Word.ofNames ((e.equation r).map Token.symbol)) ∧
    ∀ modulus : Int, modulus ≤ 0 → ∃ M, modularAutomaton modulus = .ok M ∧
      ∀ w : Word, M.accepts w = false := by
  constructor
  · intro modulus hpos
    obtain ⟨M, hbuild, haccepts⟩ := exists_modularAutomaton modulus
    refine ⟨M, hbuild, ?_⟩
    intro w
    rw [haccepts, Int.toNat_natCast]
    constructor
    · rintro ⟨e, he, hw⟩
      exact ⟨e, e.remainder modulus, he, Expression.remainder_lt hpos e,
        Expression.natCast_remainder hpos e, hw⟩
    · rintro ⟨e, r, he, -, hr, hw⟩
      rw [← Expression.natCast_remainder hpos e] at hr
      obtain rfl := Int.ofNat.inj hr
      exact ⟨e, he, hw⟩
  · intro modulus hneg
    obtain ⟨M, hbuild, haccepts⟩ := exists_modularAutomaton modulus
    refine ⟨M, hbuild, ?_⟩
    intro w
    rw [Bool.eq_false_iff, ne_eq, haccepts, Int.toNat_of_nonpos hneg]
    rintro ⟨e, he, -⟩
    exact absurd he.modulus_pos (Nat.lt_irrefl 0)

theorem modulo_five_reads_correct_equations :
    (∃ M, modularAutomaton 5 = .ok M ∧
      M.accepts (Word.ofNames ["1", "-", "3", "*", "4", "+", "1", "=", "3"]) = true) ∧
    ∃ M, modularAutomaton (-2) = .ok M ∧ M.accepts (Word.ofNames ["0", "=", "0"]) = false := by
  constructor
  · obtain ⟨M, hM, haccepts⟩ := modularAutomaton_reads_correct_equations.1 5 (by decide)
    refine ⟨M, hM, (haccepts _).2 ?_⟩
    let e : Expression := .apply (.apply (.apply (.number 1) .sub 3) .mul 4) .add 1
    have hvalue : e.value = -7 := by decide
    have hremainder : ((3 : Nat) : Int) = e.value % (5 : Nat) := by
      rw [hvalue]
      decide
    exact ⟨e, 3, by decide, by decide, hremainder, by decide⟩
  · obtain ⟨M, hM, hrejects⟩ := modularAutomaton_reads_correct_equations.2 (-2) (by decide)
    exact ⟨M, hM, hrejects _⟩

end WordAutomata.Language
