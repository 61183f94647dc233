import WordAutomata.Proofs.Dfa.Construction

/-!
# The rules and their order

The eight rules for descriptions are stated one by one, with the rule that a defect belongs to. From
the third rule on, a description is found to have a defect of the first rule that it breaks. The
first two rules are checked in one scan of the states, so there the first offending item decides: a
repeated state is reported, and an item behind it that is not a non-empty name is not.
-/
namespace WordAutomata

/-- The rules that a description has to obey, in their order. -/
inductive Rule where
  | statesNamed
  | statesDistinct
  | alphabetFit
  | rowsMatch
  | entriesMatch
  | targetsKnown
  | initialKnown
  | finalsKnown
deriving DecidableEq

def Rule.number : Rule → Nat
  | .statesNamed => 1
  | .statesDistinct => 2
  | .alphabetFit => 3
  | .rowsMatch => 4
  | .entriesMatch => 5
  | .targetsKnown => 6
  | .initialKnown => 7
  | .finalsKnown => 8

/-- The rules that are checked behind the scan of the states. -/
def Rule.behindScan : List Rule :=
  [.alphabetFit, .rowsMatch, .entriesMatch, .targetsKnown, .initialKnown, .finalsKnown]

/-- The rule that a defect breaks. -/
def Defect.rule : Defect → Rule
  | .emptyState => .statesNamed
  | .repeatedState _ => .statesDistinct
  | .alphabet _ => .alphabetFit
  | .rowsDiffer .. => .rowsMatch
  | .entriesDiffer .. => .entriesMatch
  | .unknownTarget .. => .targetsKnown
  | .unknownInitial _ => .initialKnown
  | .unknownFinal _ => .finalsKnown

/-- A state identifier, as the first rule wants it. -/
def Datum.IsIdentifier (q : Datum) : Prop := ∃ s, q = .text s ∧ s ≠ ""

namespace Description

/-- The entries of a state's row are exactly the symbols. -/
def RowFits (d : Description) (q : Datum) : Prop :=
  ∀ row, d.table.get? q = some row → ∀ a, a ∈ row.names ↔ a ∈ d.symbols

/-- The entry for a state and a symbol is nothing or a state. -/
def TargetFits (d : Description) (q a : Datum) : Prop :=
  ∀ row, d.table.get? q = some row → ∀ target, row.get? a = some target →
    target = .null ∨ target ∈ d.states

def Obeys (d : Description) : Rule → Prop
  | .statesNamed => ∀ q ∈ d.states, q.IsIdentifier
  | .statesDistinct => d.states.Nodup
  | .alphabetFit => d.symbols ≠ [] ∧
      (∀ a ∈ d.symbols, ∃ s, a = .text s ∧ s ≠ "" ∧ ',' ∉ s.toList) ∧ d.symbols.Nodup
  | .rowsMatch => ∀ q, q ∈ d.table.names ↔ q ∈ d.states
  | .entriesMatch => ∀ q ∈ d.states, d.RowFits q
  | .targetsKnown => ∀ q ∈ d.states, ∀ a ∈ d.symbols, d.TargetFits q a
  | .initialKnown => d.initial ∈ d.states
  | .finalsKnown => ∀ q ∈ d.finals, q ∈ d.states

/-- All rules before the one with a number are obeyed. -/
def ObeysBelow (d : Description) (n : Nat) : Prop := ∀ rule : Rule, rule.number < n → d.Obeys rule

/-- A state is repeated, with nothing but identifiers before it, and behind it is something that is
not an identifier. -/
def RepeatsEarly (d : Description) : Prop :=
  ∃ front q rest, d.states = front ++ .text q :: rest ∧ (∀ p ∈ front, p.IsIdentifier) ∧
    .text q ∈ front ∧ ∃ p ∈ rest, ¬ p.IsIdentifier

/-- The check of a rule. The first two share theirs. -/
def check? (d : Description) : Rule → Option Defect
  | .statesNamed => d.stateDefect?
  | .statesDistinct => d.stateDefect?
  | .alphabetFit => d.symbolDefect?
  | .rowsMatch => d.rowsDefect?
  | .entriesMatch => d.entriesDefect?
  | .targetsKnown => d.targetDefect?
  | .initialKnown => d.initialDefect?
  | .finalsKnown => d.finalDefect?

/-- The check of one state's row. -/
def rowDefect? (d : Description) (q : String) : Option Defect :=
  (differences? d.symbolSet (d.row q).names).map fun (missing, extra) =>
    .entriesDiffer q missing extra

/-- The check of one entry. -/
def entryDefect? (d : Description) (q a : String) : Option Defect :=
  if d.entry q a = .null ∨ (d.entry q a).isIn d.stateSet then none
  else some (.unknownTarget q a (d.entry q a))

theorem entriesDefect?_eq (d : Description) :
    d.entriesDefect? = d.stateSet.toList.findSome? d.rowDefect? := rfl

theorem targetDefect?_eq (d : Description) : d.targetDefect? =
    d.stateSet.toList.findSome? fun q => d.symbolSet.toList.findSome? (d.entryDefect? q) := rfl

variable {d : Description}

/-- The conditions on a legal description are the rules. -/
theorem legal_iff_obeys : d.Legal ↔ ∀ rule, d.Obeys rule := by
  constructor
  · intro h rule
    cases rule with
    | statesNamed => exact h.state_named
    | statesDistinct => exact h.states_nodup
    | alphabetFit => exact ⟨h.symbols_ne_nil, h.symbol_named, h.symbols_nodup⟩
    | rowsMatch => exact h.rows
    | entriesMatch => exact h.entries
    | targetsKnown => exact fun q hq a ha row hrow => h.targets q hq row hrow a ha
    | initialKnown => exact h.initial
    | finalsKnown => exact h.finals
  · intro h
    obtain ⟨hne, hsymbol, hsymbols⟩ := h .alphabetFit
    exact ⟨h .statesNamed, h .statesDistinct, hne, hsymbol, hsymbols, h .rowsMatch,
      h .entriesMatch, fun q hq row hrow a ha => h .targetsKnown q hq a ha row hrow,
      h .initialKnown, h .finalsKnown⟩

end Description

/-- What holds of the names of some items, all of which are names, holds of the items. -/
theorem Datum.forall_mem_ofList_names {items : List Datum} (h : ∀ d ∈ items, ∃ s, d = .text s)
    {P : Datum → Prop} :
    (∀ a ∈ Names.ofList (names items), P (.text a)) ↔ ∀ d ∈ items, P d := by
  simp only [Names.mem_ofList, mem_names]
  constructor
  · intro hP d hd
    obtain ⟨s, rfl⟩ := h d hd
    exact hP s hd
  · exact fun hP a ha => hP _ ha

namespace Rule

theorem number_injective : Function.Injective number := by
  intro r s h
  cases r <;> cases s <;> first | rfl | cases h

theorem mem_behindScan {rule : Rule} : rule ∈ behindScan ↔ 3 ≤ rule.number := by
  cases rule <;> decide

end Rule

namespace Description

variable {d : Description} {rule : Rule} {defect : Defect} {n : Nat}

theorem obeysBelow_one (d : Description) : d.ObeysBelow 1 := by
  intro rule hlt
  cases rule <;> exact absurd hlt (by decide)

theorem ObeysBelow.succ (h : d.ObeysBelow rule.number) (hrule : d.Obeys rule) :
    d.ObeysBelow (rule.number + 1) := by
  intro other hlt
  rcases Nat.lt_succ_iff_lt_or_eq.1 hlt with hlt | heq
  · exact h other hlt
  · exact Rule.number_injective heq ▸ hrule

theorem ObeysBelow.le_number (h : d.ObeysBelow n) (hrule : ¬ d.Obeys rule) : n ≤ rule.number :=
  Nat.le_of_not_lt fun hlt => hrule (h rule hlt)

/-! ## The scan of the states -/

/-- What the scan of the states stops at. -/
theorem stateDefectAfter?_eq_some {seen : List String} {items : List Datum}
    (h : stateDefectAfter? seen items = some defect) : ∃ front p rest,
      items = front ++ p :: rest ∧ Datum.FreshNames (· ≠ "") seen front ∧
      (defect = .emptyState ∧ ¬ p.IsIdentifier ∨
        ∃ q, p = .text q ∧ q ≠ "" ∧ (q ∈ seen ∨ .text q ∈ front) ∧ defect = .repeatedState q) := by
  fun_induction stateDefectAfter? seen items with
  | case1 => cases h
  | case2 seen rest =>
    refine ⟨[], .text "", rest, rfl, Datum.freshNames_nil, .inl ⟨(Option.some.inj h).symm, ?_⟩⟩
    rintro ⟨s, hs, hne⟩
    cases hs
    exact hne rfl
  | case3 seen q rest hq hs =>
    exact ⟨[], .text q, rest, rfl, Datum.freshNames_nil,
      .inr ⟨q, rfl, hq, .inl hs, (Option.some.inj h).symm⟩⟩
  | case4 seen q rest hq hs ih =>
    obtain ⟨front, p, behind, rfl, hfront, hp⟩ := ih h
    refine ⟨.text q :: front, p, behind, rfl, Datum.freshNames_cons_iff.2 ⟨hq, hs, hfront⟩, ?_⟩
    refine hp.imp_right ?_
    rintro ⟨r, hr, hne, hrepeated, hdefect⟩
    refine ⟨r, hr, hne, ?_, hdefect⟩
    rcases hrepeated with hseen | hfront
    · rcases List.mem_cons.1 hseen with rfl | hseen
      · exact .inr List.mem_cons_self
      · exact .inl hseen
    · exact .inr (List.mem_cons_of_mem _ hfront)
  | case5 seen p rest hp =>
    refine ⟨[], p, rest, rfl, Datum.freshNames_nil, .inl ⟨(Option.some.inj h).symm, ?_⟩⟩
    rintro ⟨s, hs, -⟩
    exact hp s hs

theorem RepeatsEarly.not_statesNamed (h : d.RepeatsEarly) : ¬ d.Obeys .statesNamed := by
  obtain ⟨front, q, rest, hstates, -, -, p, hp, hnot⟩ := h
  intro hnamed
  exact hnot (hnamed p (hstates ▸ List.mem_append_right _ (List.mem_cons_of_mem _ hp)))

/-- Identifiers that are distinct, up to an item that is no identifier, are not repeated early. -/
theorem not_repeatsEarly {front rest : List Datum} {p : Datum}
    (hstates : d.states = front ++ p :: rest) (hfront : front.Nodup) (hp : ¬ p.IsIdentifier) :
    ¬ d.RepeatsEarly := by
  rintro ⟨before, q, behind, hsplit, hbefore, hq, -⟩
  have hnamed : ∀ r ∈ before ++ [.text q], r.IsIdentifier := by
    intro r hr
    rcases List.mem_append.1 hr with hr | hr
    · exact hbefore r hr
    · exact List.mem_singleton.1 hr ▸ hbefore _ hq
  have hrepeats : ¬ (before ++ [Datum.text q]).Nodup := by
    intro hn
    exact (List.nodup_append.1 hn).2.2 _ hq _ List.mem_cons_self rfl
  rw [hstates, List.append_cons before] at hsplit
  -- The repetition is among the distinct identifiers, or the item that is none is among identifiers.
  rcases List.append_eq_append_iff.1 hsplit with ⟨left, hleft, hright⟩ | ⟨left, rfl, -⟩
  · cases left with
    | nil =>
      rw [List.append_nil] at hleft
      exact hrepeats (hleft ▸ hfront)
    | cons r left =>
      obtain ⟨rfl, -⟩ := List.cons.inj hright
      exact hp (hnamed p (hleft ▸ List.mem_append_right _ List.mem_cons_self))
  · exact hrepeats (List.nodup_append.1 hfront).1

/-- A defect in the scan of the states is of the lower rule that is broken, unless a state is
repeated early. -/
theorem rule_of_stateDefect? (h : d.stateDefect? = some defect) : ¬ d.Obeys defect.rule ∧
    (d.ObeysBelow defect.rule.number ∧ ¬ d.RepeatsEarly ∨
      d.RepeatsEarly ∧ defect.rule = .statesDistinct) := by
  obtain ⟨front, p, rest, hstates, ⟨hfresh, hnodup⟩, hp⟩ := stateDefectAfter?_eq_some h
  have hnamed : ∀ r ∈ front, r.IsIdentifier :=
    fun r hr => (hfresh r hr).imp fun _ h => ⟨h.1, h.2.1⟩
  rcases hp with ⟨rfl, hp⟩ | ⟨q, rfl, hq, hrepeated, rfl⟩
  · have hmem : p ∈ d.states := hstates ▸ List.mem_append_right _ List.mem_cons_self
    exact ⟨fun hobeys => hp (hobeys p hmem),
      .inl ⟨d.obeysBelow_one, not_repeatsEarly hstates hnodup hp⟩⟩
  · have hfront : .text q ∈ front := hrepeated.resolve_left List.not_mem_nil
    refine ⟨?_, ?_⟩
    · intro hdistinct
      have hn : (front ++ .text q :: rest).Nodup := hstates ▸ hdistinct
      exact (List.nodup_append.1 hn).2.2 _ hfront _ List.mem_cons_self rfl
    · by_cases hrest : ∀ r ∈ rest, r.IsIdentifier
      · have hobeys : d.Obeys .statesNamed := by
          intro r hr
          rw [hstates, List.mem_append, List.mem_cons] at hr
          rcases hr with hr | rfl | hr
          · exact hnamed r hr
          · exact ⟨q, rfl, hq⟩
          · exact hrest r hr
        exact .inl ⟨d.obeysBelow_one.succ hobeys,
          fun hearly => hearly.not_statesNamed hobeys⟩
      · obtain ⟨r, hr⟩ := Classical.not_forall.1 hrest
        exact .inr ⟨⟨front, q, rest, hstates, hnamed, hfront, r, Classical.not_imp.1 hr⟩, rfl⟩

/-! ## The other rules -/

theorem ObeysBelow.isIn_stateSet (h : d.ObeysBelow n) (hn : 1 < n) (q : Datum) :
    q.isIn d.stateSet = true ↔ q ∈ d.states :=
  Description.isIn_stateSet (h .statesNamed hn) q

theorem ObeysBelow.isIn_symbolSet (h : d.ObeysBelow n) (hn : 3 < n) (a : Datum) :
    a.isIn d.symbolSet = true ↔ a ∈ d.symbols :=
  Description.isIn_symbolSet (h .alphabetFit hn).2.1 a

theorem ObeysBelow.state_named (h : d.ObeysBelow n) (hn : 1 < n) :
    ∀ q ∈ d.states, ∃ s, q = .text s :=
  fun q hq => (h .statesNamed hn q hq).imp fun _ => And.left

theorem ObeysBelow.symbol_named (h : d.ObeysBelow n) (hn : 3 < n) :
    ∀ a ∈ d.symbols, ∃ s, a = .text s :=
  fun a ha => ((h .alphabetFit hn).2.1 a ha).imp fun _ => And.left

theorem forall_mem_stateSet (h : d.ObeysBelow n) (hn : 1 < n) {P : Datum → Prop} :
    (∀ q ∈ d.stateSet, P (.text q)) ↔ ∀ q ∈ d.states, P q :=
  Datum.forall_mem_ofList_names (h.state_named hn)

theorem forall_mem_symbolSet (h : d.ObeysBelow n) (hn : 3 < n) {P : Datum → Prop} :
    (∀ a ∈ d.symbolSet, P (.text a)) ↔ ∀ a ∈ d.symbols, P a :=
  Datum.forall_mem_ofList_names (h.symbol_named hn)

/-- A state has a row if the rows match. -/
theorem ObeysBelow.exists_row (h : d.ObeysBelow n) (hn : 4 < n) {q : Datum} (hq : q ∈ d.states) :
    ∃ row, d.table.get? q = some row :=
  Fields.exists_get?_of_mem_names ((h .rowsMatch hn q).2 hq)

/-- A symbol has an entry in the row of a state if the entries match. -/
theorem ObeysBelow.exists_entry (h : d.ObeysBelow n) (hn : 5 < n) {q a : Datum} (hq : q ∈ d.states)
    (ha : a ∈ d.symbols) : ∃ row target, d.table.get? q = some row ∧ row.get? a = some target := by
  obtain ⟨row, hrow⟩ := h.exists_row (Nat.lt_of_succ_lt hn) hq
  obtain ⟨target, htarget⟩ :=
    Fields.exists_get?_of_mem_names ((h .entriesMatch hn q hq row hrow a).2 ha)
  exact ⟨row, target, hrow, htarget⟩

theorem rowDefect?_eq_none_iff (h : d.ObeysBelow n) (hn : 4 < n) {q : String}
    (hq : q ∈ d.stateSet) : d.rowDefect? q = none ↔ d.RowFits (.text q) := by
  obtain ⟨row, hrow⟩ := h.exists_row hn (mem_stateSet.1 hq)
  rw [rowDefect?, Option.map_eq_none_iff, differences?_eq_none_iff, row_eq hrow]
  simp only [h.isIn_symbolSet (Nat.lt_of_succ_lt hn), RowFits, hrow, Option.some.injEq, forall_eq']

theorem entryDefect?_eq_none_iff (h : d.ObeysBelow n) (hn : 5 < n) {q a : String}
    (hq : q ∈ d.stateSet) (ha : a ∈ d.symbolSet) :
    d.entryDefect? q a = none ↔ d.TargetFits (.text q) (.text a) := by
  obtain ⟨row, target, hrow, htarget⟩ := h.exists_entry hn (mem_stateSet.1 hq) (mem_symbolSet.1 ha)
  rw [entryDefect?, entry_eq hrow htarget]
  simp only [ite_eq_left_iff, reduceCtorEq, imp_false, Classical.not_not, TargetFits, hrow,
    Option.some.injEq, forall_eq', htarget, h.isIn_stateSet (Nat.lt_trans (by decide) hn)]

/-- When the rules before it are obeyed, the check of a rule behind the scan finds nothing exactly
if the rule is obeyed. -/
theorem check?_eq_none_iff (hscan : 3 ≤ rule.number) (h : d.ObeysBelow rule.number) :
    d.check? rule = none ↔ d.Obeys rule := by
  have hS := h.isIn_stateSet (Nat.lt_of_lt_of_le (by decide) hscan)
  cases rule with
  | statesNamed => exact absurd hscan (by decide)
  | statesDistinct => exact absurd hscan (by decide)
  | alphabetFit => exact symbolDefect?_eq_none_iff
  | rowsMatch => exact rowsDefect?_eq_none_iff.trans (forall_congr' fun q => by rw [hS])
  | entriesMatch =>
    rw [check?, entriesDefect?_eq, List.findSome?_eq_none_iff, Obeys,
      ← forall_mem_stateSet h (by decide)]
    exact forall₂_congr fun q hq => rowDefect?_eq_none_iff h (by decide) hq
  | targetsKnown =>
    rw [check?, targetDefect?_eq, List.findSome?_eq_none_iff, Obeys,
      ← forall_mem_stateSet h (by decide)]
    refine forall₂_congr fun q hq => ?_
    rw [List.findSome?_eq_none_iff, ← forall_mem_symbolSet h (by decide)]
    exact forall₂_congr fun a ha => entryDefect?_eq_none_iff h (by decide) hq ha
  | initialKnown => exact initialDefect?_eq_none_iff.trans (hS _)
  | finalsKnown => exact finalDefect?_eq_none_iff.trans (forall₂_congr fun q _ => hS q)

theorem rule_of_check? (hscan : 3 ≤ rule.number) (h : d.check? rule = some defect) :
    defect.rule = rule := by
  cases rule with
  | statesNamed => exact absurd hscan (by decide)
  | statesDistinct => exact absurd hscan (by decide)
  | alphabetFit =>
    obtain ⟨_, _, rfl⟩ := Option.map_eq_some_iff.1 h
    rfl
  | rowsMatch =>
    obtain ⟨_, _, rfl⟩ := Option.map_eq_some_iff.1 h
    rfl
  | entriesMatch =>
    obtain ⟨_, _, h⟩ := List.exists_of_findSome?_eq_some h
    obtain ⟨_, _, rfl⟩ := Option.map_eq_some_iff.1 h
    rfl
  | targetsKnown =>
    obtain ⟨q, _, h⟩ := List.exists_of_findSome?_eq_some h
    obtain ⟨a, _, h⟩ := List.exists_of_findSome?_eq_some h
    obtain ⟨-, hdefect⟩ := Option.ite_none_left_eq_some.1 h
    cases hdefect
    rfl
  | initialKnown =>
    obtain ⟨-, hdefect⟩ := Option.ite_none_left_eq_some.1 h
    cases hdefect
    rfl
  | finalsKnown =>
    obtain ⟨_, _, rfl⟩ := Option.map_eq_some_iff.1 h
    rfl

/-- The first check of some consecutive rules that finds a defect is that of the first rule that is
broken. -/
theorem findSome?_check?_iff {rules : List Rule} (hscan : 3 ≤ n)
    (hnumbers : rules.map Rule.number = List.range' n rules.length) (h : d.ObeysBelow n) :
    rules.findSome? d.check? = some defect ↔
      ∃ rule ∈ rules, d.ObeysBelow rule.number ∧ d.check? rule = some defect := by
  induction rules generalizing n with
  | nil => simp
  | cons rule rules ih =>
    rw [List.map_cons, List.length_cons, List.range'_succ, List.cons.injEq] at hnumbers
    obtain ⟨rfl, hnumbers⟩ := hnumbers
    have hnone := check?_eq_none_iff hscan h
    rw [List.findSome?_cons]
    cases hcheck : d.check? rule with
    | none =>
      rw [ih (Nat.le_succ_of_le hscan) hnumbers (h.succ (hnone.1 hcheck))]
      simp [hcheck]
    | some first =>
      -- A later rule is not checked, since this one is broken.
      have hbroken : ¬ d.Obeys rule := fun hobeys => by simp [hnone.2 hobeys] at hcheck
      constructor
      · rintro ⟨⟩
        exact ⟨rule, List.mem_cons_self, h, hcheck⟩
      · rintro ⟨other, hmem, hbelow, hother⟩
        rcases List.mem_cons.1 hmem with rfl | hmem
        · exact hcheck.symm.trans hother
        · have hlater : other.number ∈ List.range' (rule.number + 1) rules.length :=
            hnumbers ▸ List.mem_map_of_mem hmem
          exact absurd (hbelow rule (List.mem_range'_1.1 hlater).1) hbroken

/-- Behind the scan of the states the defect is that of the first rule that is broken. -/
theorem defect?_eq_some_iff (hstates : d.stateDefect? = none) : d.defect? = some defect ↔
    ∃ rule : Rule, 3 ≤ rule.number ∧ d.ObeysBelow rule.number ∧ d.check? rule = some defect := by
  have hor : ∀ rule rules, List.findSome? d.check? (rule :: rules) =
      (d.check? rule).or (rules.findSome? d.check?) := by
    intro rule rules
    rw [List.findSome?_cons]
    cases d.check? rule <;> rfl
  have hchecks : d.defect? = Rule.behindScan.findSome? d.check? := by
    rw [defect?, hstates, Option.none_or]
    simp only [Rule.behindScan, hor, check?, List.findSome?_nil, Option.or_none]
  obtain ⟨hnamed, hdistinct⟩ : d.Obeys .statesNamed ∧ d.Obeys .statesDistinct :=
    stateDefect?_eq_none_iff.1 hstates
  have hfirst : d.ObeysBelow Rule.statesDistinct.number := d.obeysBelow_one.succ hnamed
  rw [hchecks, findSome?_check?_iff (Nat.le_refl 3) rfl (hfirst.succ hdistinct)]
  simp only [Rule.mem_behindScan]

/-- The defect of a description breaks its rule. No rule before that is broken, except that the
first one may be if a state is repeated early. -/
theorem rule_of_defect? (h : d.defect? = some defect) : ¬ d.Obeys defect.rule ∧
    (d.ObeysBelow defect.rule.number ∧ ¬ d.RepeatsEarly ∨
      d.RepeatsEarly ∧ defect.rule = .statesDistinct) := by
  cases hstates : d.stateDefect? with
  | some first =>
    rw [defect?, hstates, Option.some_or] at h
    exact Option.some.inj h ▸ rule_of_stateDefect? hstates
  | none =>
    obtain ⟨rule, hscan, hbelow, hcheck⟩ := (defect?_eq_some_iff hstates).1 h
    rw [rule_of_check? hscan hcheck]
    refine ⟨fun hobeys => ?_, .inl ⟨hbelow, fun hearly => ?_⟩⟩
    · rw [(check?_eq_none_iff hscan hbelow).2 hobeys] at hcheck
      cases hcheck
    · exact hearly.not_statesNamed (stateDefect?_eq_none_iff.1 hstates).1

/-- The descriptions that break a rule are those that fail. -/
theorem exists_build_eq_error_iff :
    (∃ defect, d.build = .error defect) ↔ ∃ rule, ¬ d.Obeys rule := by
  simp only [build_eq_error_iff, ← Option.ne_none_iff_exists', ne_eq,
    defect?_eq_none_iff_legal, legal_iff_obeys, Classical.not_forall]

/-- A description that breaks a rule is reported to have a defect of a rule that it breaks. That is
the first rule that it breaks, unless a state is repeated before the first item that is not a
non-empty name: then the repetition is reported, though the rule before that is broken. Targets, the
initial state and final states are scalars; a list or a record among them counts as unknown. -/
theorem defect_is_of_first_broken_rule (d : Description) :
    ((∃ defect, d.build = .error defect) ↔ ∃ rule, ¬ d.Obeys rule) ∧
    ∀ defect, d.build = .error defect → ¬ d.Obeys defect.rule ∧
      (¬ d.RepeatsEarly → ∀ rule, ¬ d.Obeys rule → defect.rule.number ≤ rule.number) ∧
      (d.RepeatsEarly → defect.rule = .statesDistinct ∧ ¬ d.Obeys .statesNamed) := by
  refine ⟨exists_build_eq_error_iff, fun defect h => ?_⟩
  obtain ⟨hbroken, hfirst⟩ := rule_of_defect? (build_eq_error_iff.1 h)
  refine ⟨hbroken, fun hearly rule => ?_, fun hearly => ⟨?_, hearly.not_statesNamed⟩⟩
  · exact (hfirst.resolve_right fun h => hearly h.1).1.le_number
  · exact (hfirst.resolve_left fun h => h.2 hearly).2

/-- States of which one is repeated and a later one is empty. -/
def repeatedBeforeEmpty : Description where
  states := [.text "a", .text "a", .text ""]
  symbols := [.text "0"]
  table := [(.text "a", [(.text "0", .text "a")]), (.text "", [(.text "0", .text "a")])]
  initial := .text "a"
  finals := []

/-- The first broken rule does not always decide: with a repeated state before an empty one, the
repetition is reported. -/
theorem repeated_state_hides_empty_state :
    repeatedBeforeEmpty.Named ∧
    repeatedBeforeEmpty.build = .error (.repeatedState "a") ∧
    ¬ ∀ d : Description, d.Named → (∃ rule, ¬ d.Obeys rule) →
      ∃ defect, d.build = .error defect ∧
        ∀ rule, ¬ d.Obeys rule → defect.rule.number ≤ rule.number := by
  have hnamed : repeatedBeforeEmpty.Named := by
    constructor
    · simp [repeatedBeforeEmpty, Fields.names]
    · simp [repeatedBeforeEmpty, Fields.names]
  have hbuild : repeatedBeforeEmpty.build = .error (.repeatedState "a") :=
    build_eq_error_iff.2 (by decide)
  have hempty : ¬ repeatedBeforeEmpty.Obeys .statesNamed := by
    intro h
    obtain ⟨s, hs, hne⟩ := h (.text "") (by simp [repeatedBeforeEmpty])
    cases hs
    exact hne rfl
  refine ⟨hnamed, hbuild, fun hall => ?_⟩
  obtain ⟨defect, hdefect, hleast⟩ := hall repeatedBeforeEmpty hnamed ⟨_, hempty⟩
  cases hbuild.symm.trans hdefect
  exact absurd (hleast _ hempty) (by decide)

end Description
end WordAutomata
