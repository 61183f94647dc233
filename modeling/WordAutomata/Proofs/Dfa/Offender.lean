import WordAutomata.Proofs.Dfa.Reordering
import WordAutomata.Proofs.Dfa.Rules

/-!
# The offender that a defect names

When the states and the symbols pass their scans, a defect names the least offender against the
first rule that is broken: the names that are missing and those that are extra, the least state with
a row that does not fit, the least state and symbol with an unknown target, or the unknown final
state whose quoted form comes first.
-/
namespace WordAutomata

/-- The given names are not the expected ones: those that are missing and those that are extra. -/
structure Differ (expected given : List Datum) (missing : Names) (extra : List Datum) : Prop where
  differ : ¬ ∀ x, x ∈ given ↔ x ∈ expected
  missing_iff : ∀ a, a ∈ missing ↔ .text a ∈ expected ∧ .text a ∉ given
  extra_eq : ∃ names : Names, extra = names.toList.map .text ∧
    ∀ a, a ∈ names ↔ .text a ∈ given ∧ .text a ∉ expected

/-- A defect names the least offender against its rule. -/
inductive Description.Offends (d : Description) : Defect → Prop where
  | rows {missing : Names} {extra : List Datum} (h : Differ d.states d.table.names missing extra) :
      Offends d (.rowsDiffer missing extra)
  | entries {q : String} {row : Fields Datum Datum} {missing : Names} {extra : List Datum}
      (hq : .text q ∈ d.states) (hrow : d.table.get? (.text q) = some row)
      (h : Differ d.symbols row.names missing extra)
      (hleast : ∀ r, .text r ∈ d.states → r < q → d.RowFits (.text r)) :
      Offends d (.entriesDiffer q missing extra)
  | target {q a : String} {row : Fields Datum Datum} {target : Datum} (hq : .text q ∈ d.states)
      (ha : .text a ∈ d.symbols) (hrow : d.table.get? (.text q) = some row)
      (htarget : row.get? (.text a) = some target) (hnull : target ≠ .null)
      (hunknown : target ∉ d.states)
      (hleast : ∀ r b, .text r ∈ d.states → .text b ∈ d.symbols → r < q ∨ r = q ∧ b < a →
        d.TargetFits (.text r) (.text b)) : Offends d (.unknownTarget q a target)
  | initial (h : d.initial ∉ d.states) : Offends d (.unknownInitial d.initial)
  | final {q : Datum} (hq : q ∈ d.finals) (hunknown : q ∉ d.states)
      (hleast : ∀ r ∈ d.finals, r ∉ d.states → r ≠ q → q.quoted < r.quoted) :
      Offends d (.unknownFinal q)

/-- A search through a set of names stops at the least name that answers. -/
theorem Names.findSome?_eq_some_iff {α : Type} {s : Names} {f : String → Option α} {x : α} :
    s.toList.findSome? f = some x ↔ ∃ a ∈ s, f a = some x ∧ ∀ b ∈ s, b < a → f b = none := by
  rw [List.findSome?_eq_some_iff]
  constructor
  · rintro ⟨front, a, rest, hs, ha, hfront⟩
    -- The names before the one that answers are exactly the lesser ones.
    have hsorted := s.increasing
    rw [hs, List.pairwise_append, List.pairwise_cons] at hsorted
    have hmem : ∀ b, b ∈ s ↔ b ∈ front ∨ b = a ∨ b ∈ rest := by
      intro b
      rw [mem_def, hs, List.mem_append, List.mem_cons]
    refine ⟨a, (hmem a).2 (.inr (.inl rfl)), ha, fun b hb hlt => ?_⟩
    rw [hmem] at hb
    rcases hb with hb | rfl | hb
    · exact hfront b hb
    · exact absurd hlt (String.lt_irrefl b)
    · exact absurd hlt (String.lt_asymm (hsorted.2.1.1 b hb))
  · rintro ⟨a, ha, hx, hleast⟩
    obtain ⟨front, rest, hs⟩ := List.append_of_mem ha
    have hsorted := s.increasing
    rw [hs, List.pairwise_append] at hsorted
    refine ⟨front, a, rest, hs, hx, fun b hb => ?_⟩
    refine hleast b ?_ (hsorted.2.2 b hb a List.mem_cons_self)
    rw [mem_def, hs]
    exact List.mem_append_left _ hb

namespace Differ

variable {expected given : List Datum} {missing : Names} {extra : List Datum}

theorem disjoint (h : Differ expected given missing extra) : ∀ a ∈ missing, .text a ∉ extra := by
  obtain ⟨names, rfl, hnames⟩ := h.extra_eq
  intro a ha hextra
  obtain ⟨b, hb, hab⟩ := List.mem_map.1 hextra
  rw [Datum.text_injective hab] at hb
  exact ((h.missing_iff a).1 ha).2 ((hnames a).1 hb).1

theorem not_both_empty (h : Differ expected given missing extra)
    (hexpected : ∀ x ∈ expected, ∃ s, x = .text s) (hgiven : ∀ x ∈ given, ∃ s, x = .text s) :
    ¬ (missing.toList = [] ∧ extra = []) := by
  rintro ⟨hmissing, rfl⟩
  obtain ⟨names, hnil, hnames⟩ := h.extra_eq
  have hextra : names.toList = [] := List.map_eq_nil_iff.1 hnil.symm
  refine h.differ fun x => ⟨fun hx => ?_, fun hx => ?_⟩
  · obtain ⟨a, rfl⟩ := hgiven x hx
    by_contra hnot
    have ha := (hnames a).2 ⟨hx, hnot⟩
    rw [Names.mem_def, hextra] at ha
    exact List.not_mem_nil ha
  · obtain ⟨a, rfl⟩ := hexpected x hx
    by_contra hnot
    have ha := (h.missing_iff a).2 ⟨hx, hnot⟩
    rw [Names.mem_def, hmissing] at ha
    exact List.not_mem_nil ha

end Differ

namespace Description

variable {d : Description} {rule : Rule} {defect : Defect} {n : Nat}

/-- The differences between given names and a set are what is missing and what is extra. -/
theorem differences?_eq_some_iff {expected : Names} {items given : List Datum} {missing : Names}
    {extra : List Datum} (hitems : ∀ x, x.isIn expected = true ↔ x ∈ items)
    (hgiven : ∀ x ∈ given, ∃ s, x = .text s) :
    differences? expected given = some (missing, extra) ↔ Differ items given missing extra := by
  have hmem : ∀ a, a ∈ expected ↔ .text a ∈ items := fun a => Datum.isIn_text.symm.trans (hitems _)
  have hnone : differences? expected given = none ↔ ∀ x, x ∈ given ↔ x ∈ items :=
    differences?_eq_none_iff.trans (forall_congr' fun x => by rw [hitems])
  have hsome : ∀ {p}, differences? expected given = some p →
      p = (expected.diff (.ofList (Datum.names given)),
        ((Names.ofList (Datum.names given)).diff expected).toList.map .text) := by
    intro p hp
    simp only [differences?, Datum.filter_isNone_asText? hgiven] at hp
    obtain ⟨-, hp⟩ := Option.ite_none_left_eq_some.1 hp
    exact (Option.some.inj hp).symm
  constructor
  · intro h
    obtain ⟨rfl, rfl⟩ := Prod.mk.inj (hsome h)
    refine ⟨fun hall => ?_, fun a => ?_, _, rfl, fun a => ?_⟩
    · rw [hnone.2 hall] at h
      cases h
    · simp [hmem]
    · simp [hmem]
  · intro h
    obtain ⟨p, hp⟩ := Option.ne_none_iff_exists'.1 (mt hnone.1 h.differ)
    obtain ⟨names, rfl, hnames⟩ := h.extra_eq
    have hmissing : missing = expected.diff (.ofList (Datum.names given)) :=
      Names.eq_of_mem_iff fun a => by simp [h.missing_iff, hmem]
    have hextra : names = (Names.ofList (Datum.names given)).diff expected :=
      Names.eq_of_mem_iff fun a => by simp [hnames, hmem]
    rw [hp, hsome hp, hmissing, hextra]

/-- Among scalars the one with the least quoted form is found. -/
theorem leastQuoted?_eq_some_iff {items : List Datum} {q : Datum}
    (hitems : ∀ r ∈ items, r.IsScalar) : leastQuoted? items = some q ↔
      q ∈ items ∧ ∀ r ∈ items, r ≠ q → q.quoted < r.quoted := by
  constructor
  · intro h
    have hq := leastQuoted?_mem h
    refine ⟨hq, fun r hr hne => ?_⟩
    rcases Std.lt_trichotomy q.quoted r.quoted with hlt | heq | hlt
    · exact hlt
    · exact absurd (Datum.eq_of_quoted_eq (hitems q hq) (hitems r hr) heq).symm hne
    · exact absurd hlt (leastQuoted?_le h r hr)
  · rintro ⟨hq, hleast⟩
    have hne : leastQuoted? items ≠ none :=
      fun hnone => List.ne_nil_of_mem hq (leastQuoted?_eq_none_iff.1 hnone)
    obtain ⟨r, hr⟩ := Option.ne_none_iff_exists'.1 hne
    have heq : r = q := by
      by_contra hnot
      exact leastQuoted?_le hr q hq (hleast r (leastQuoted?_mem hr) hnot)
    rw [hr, heq]

/-! ## The checks of the rules -/

/-- The entries of a row that the table has are under names. -/
theorem Named.names_of_get? (h : d.Named) {q : String} {row : Fields Datum Datum}
    (hrow : d.table.get? (.text q) = some row) : ∀ a ∈ row.names, ∃ s, a = .text s :=
  row_eq hrow ▸ h.names_row q

theorem rowsDefect?_eq_some_iff (h : d.ObeysBelow n) (hn : 1 < n) (hnamed : d.Named) :
    d.rowsDefect? = some defect ↔ d.Offends defect ∧ defect.rule = .rowsMatch := by
  rw [rowsDefect?, Option.map_eq_some_iff, Prod.exists]
  simp only [differences?_eq_some_iff (h.isIn_stateSet hn) hnamed.row]
  constructor
  · rintro ⟨missing, extra, hdiffer, rfl⟩
    exact ⟨.rows hdiffer, rfl⟩
  · rintro ⟨hoffends, hrule⟩
    cases hoffends with
    | rows hdiffer => exact ⟨_, _, hdiffer, rfl⟩
    | _ => cases hrule

theorem rowDefect?_eq_some_iff (h : d.ObeysBelow n) (hn : 4 < n) (hnamed : d.Named) {q : String}
    (hq : q ∈ d.stateSet) : d.rowDefect? q = some defect ↔ ∃ row missing extra,
      d.table.get? (.text q) = some row ∧ Differ d.symbols row.names missing extra ∧
      .entriesDiffer q missing extra = defect := by
  obtain ⟨row, hrow⟩ := h.exists_row hn (mem_stateSet.1 hq)
  rw [rowDefect?, Option.map_eq_some_iff, Prod.exists, row_eq hrow]
  simp only [differences?_eq_some_iff (h.isIn_symbolSet (Nat.lt_of_succ_lt hn))
    (hnamed.names_of_get? hrow), hrow, Option.some.injEq, exists_and_left, exists_eq_left']

theorem entriesDefect?_eq_some_iff (h : d.ObeysBelow n) (hn : 4 < n) (hnamed : d.Named) :
    d.entriesDefect? = some defect ↔ d.Offends defect ∧ defect.rule = .entriesMatch := by
  rw [entriesDefect?_eq, Names.findSome?_eq_some_iff]
  constructor
  · rintro ⟨q, hq, hdefect, hleast⟩
    obtain ⟨row, missing, extra, hrow, hdiffer, rfl⟩ :=
      (rowDefect?_eq_some_iff h hn hnamed hq).1 hdefect
    refine ⟨.entries (mem_stateSet.1 hq) hrow hdiffer fun r hr hlt => ?_, rfl⟩
    have hr := mem_stateSet.2 hr
    exact (rowDefect?_eq_none_iff h hn hr).1 (hleast r hr hlt)
  · rintro ⟨hoffends, hrule⟩
    cases hoffends with
    | entries hq hrow hdiffer hleast =>
      have hq := mem_stateSet.2 hq
      refine ⟨_, hq, ?_, fun r hr hlt => ?_⟩
      · exact (rowDefect?_eq_some_iff h hn hnamed hq).2 ⟨_, _, _, hrow, hdiffer, rfl⟩
      · exact (rowDefect?_eq_none_iff h hn hr).2 (hleast r (mem_stateSet.1 hr) hlt)
    | _ => cases hrule

theorem entryDefect?_eq_some_iff (h : d.ObeysBelow n) (hn : 5 < n) {q a : String}
    (hq : q ∈ d.stateSet) (ha : a ∈ d.symbolSet) : d.entryDefect? q a = some defect ↔
      ∃ row target, d.table.get? (.text q) = some row ∧ row.get? (.text a) = some target ∧
        target ≠ .null ∧ target ∉ d.states ∧ .unknownTarget q a target = defect := by
  obtain ⟨row, target, hrow, htarget⟩ := h.exists_entry hn (mem_stateSet.1 hq) (mem_symbolSet.1 ha)
  rw [entryDefect?, entry_eq hrow htarget, Option.ite_none_left_eq_some]
  simp [hrow, htarget, h.isIn_stateSet (Nat.lt_trans (by decide) hn), and_assoc]

theorem targetDefect?_eq_some_iff (h : d.ObeysBelow n) (hn : 5 < n) :
    d.targetDefect? = some defect ↔ d.Offends defect ∧ defect.rule = .targetsKnown := by
  rw [targetDefect?_eq, Names.findSome?_eq_some_iff]
  simp only [Names.findSome?_eq_some_iff, List.findSome?_eq_none_iff]
  constructor
  · rintro ⟨q, hq, ⟨a, ha, hdefect, hsymbols⟩, hstates⟩
    obtain ⟨row, target, hrow, htarget, hnull, hunknown, rfl⟩ :=
      (entryDefect?_eq_some_iff h hn hq ha).1 hdefect
    refine ⟨.target (mem_stateSet.1 hq) (mem_symbolSet.1 ha) hrow htarget hnull hunknown ?_, rfl⟩
    intro r b hr hb hlt
    have hr := mem_stateSet.2 hr
    have hb := mem_symbolSet.2 hb
    rw [← entryDefect?_eq_none_iff h hn hr hb]
    rcases hlt with hlt | ⟨rfl, hlt⟩
    · exact hstates r hr hlt b hb
    · exact hsymbols b hb hlt
  · rintro ⟨hoffends, hrule⟩
    cases hoffends with
    | target hq ha hrow htarget hnull hunknown hleast =>
      have hq' := mem_stateSet.2 hq
      have ha' := mem_symbolSet.2 ha
      refine ⟨_, hq', ⟨_, ha', ?_, fun b hb hlt => ?_⟩, fun r hr hlt b hb => ?_⟩
      · exact (entryDefect?_eq_some_iff h hn hq' ha').2
          ⟨_, _, hrow, htarget, hnull, hunknown, rfl⟩
      · exact (entryDefect?_eq_none_iff h hn hq' hb).2
          (hleast _ b hq (mem_symbolSet.1 hb) (.inr ⟨rfl, hlt⟩))
      · exact (entryDefect?_eq_none_iff h hn hr hb).2
          (hleast r b (mem_stateSet.1 hr) (mem_symbolSet.1 hb) (.inl hlt))
    | _ => cases hrule

theorem initialDefect?_eq_some_iff (h : d.ObeysBelow n) (hn : 1 < n) :
    d.initialDefect? = some defect ↔ d.Offends defect ∧ defect.rule = .initialKnown := by
  rw [initialDefect?, Option.ite_none_left_eq_some, h.isIn_stateSet hn, Option.some.injEq]
  constructor
  · rintro ⟨hinitial, rfl⟩
    exact ⟨.initial hinitial, rfl⟩
  · rintro ⟨hoffends, hrule⟩
    cases hoffends with
    | initial hinitial => exact ⟨hinitial, rfl⟩
    | _ => cases hrule

theorem finalDefect?_eq_some_iff (h : d.ObeysBelow n) (hn : 1 < n)
    (hfinals : ∀ q ∈ d.finals, q.IsScalar) :
    d.finalDefect? = some defect ↔ d.Offends defect ∧ defect.rule = .finalsKnown := by
  have hmem : ∀ q, q ∈ d.unknownFinals ↔ q ∈ d.finals ∧ q ∉ d.states := by
    intro q
    rw [unknownFinals, List.mem_filter, Bool.not_eq_true', ← Bool.not_eq_true,
      h.isIn_stateSet hn]
  have hscalar : ∀ q ∈ d.unknownFinals, q.IsScalar := fun q hq => hfinals q ((hmem q).1 hq).1
  rw [finalDefect?, Option.map_eq_some_iff]
  simp only [leastQuoted?_eq_some_iff hscalar, hmem, and_imp]
  constructor
  · rintro ⟨q, ⟨⟨hq, hunknown⟩, hleast⟩, rfl⟩
    exact ⟨.final hq hunknown hleast, rfl⟩
  · rintro ⟨hoffends, hrule⟩
    cases hoffends with
    | final hq hunknown hleast => exact ⟨_, ⟨⟨hq, hunknown⟩, hleast⟩, rfl⟩
    | _ => cases hrule

/-- When the rules before it are obeyed, the check of a rule behind the scans finds the least
offender against it. -/
theorem check?_eq_some_iff (hscans : 4 ≤ rule.number) (h : d.ObeysBelow rule.number)
    (hnamed : d.Named) (hfinals : ∀ q ∈ d.finals, q.IsScalar) :
    d.check? rule = some defect ↔ d.Offends defect ∧ defect.rule = rule := by
  cases rule with
  | statesNamed => exact absurd hscans (by decide)
  | statesDistinct => exact absurd hscans (by decide)
  | alphabetFit => exact absurd hscans (by decide)
  | rowsMatch => exact rowsDefect?_eq_some_iff h (by decide) hnamed
  | entriesMatch => exact entriesDefect?_eq_some_iff h (by decide) hnamed
  | targetsKnown => exact targetDefect?_eq_some_iff h (by decide)
  | initialKnown => exact initialDefect?_eq_some_iff h (by decide)
  | finalsKnown => exact finalDefect?_eq_some_iff h (by decide) hfinals

theorem Offends.number_le (h : d.Offends defect) : 4 ≤ defect.rule.number := by
  cases h <;> simp [Defect.rule, Rule.number]

/-- The defect of a description that passes its scans is the least offender against the first rule
that is broken. -/
theorem defect?_eq_some_iff_offends (hstates : d.stateDefect? = none)
    (hsymbols : d.symbolDefect? = none) (hnamed : d.Named)
    (hfinals : ∀ q ∈ d.finals, q.IsScalar) :
    d.defect? = some defect ↔ d.ObeysBelow defect.rule.number ∧ d.Offends defect := by
  rw [defect?_eq_some_iff hstates]
  constructor
  · rintro ⟨rule, hscan, hbelow, hcheck⟩
    rcases Nat.eq_or_lt_of_le hscan with heq | hscans
    · -- The third rule cannot be the one: the symbols pass their scan.
      obtain rfl : rule = .alphabetFit := Rule.number_injective heq.symm
      exact absurd (hsymbols.symm.trans hcheck) (by simp)
    · obtain ⟨hoffends, rfl⟩ := (check?_eq_some_iff hscans hbelow hnamed hfinals).1 hcheck
      exact ⟨hbelow, hoffends⟩
  · rintro ⟨hbelow, hoffends⟩
    exact ⟨_, Nat.le_of_succ_le hoffends.number_le, hbelow,
      (check?_eq_some_iff hoffends.number_le hbelow hnamed hfinals).2 ⟨hoffends, rfl⟩⟩

/-- A description of which the states and symbols pass their scans fails if it breaks a rule, and
the defect names the least offender against the first rule that it breaks. Names that are missing
are not extra, and where either are listed, one of the lists is not empty. Every final state is a
name, an integer, a truth value or nothing: of these no two have the same quoted form, whereas all
real numbers are shown alike. A target or an initial state is a scalar as well. -/
theorem defect_names_least_offender (hstates : d.stateDefect? = none)
    (hsymbols : d.symbolDefect? = none) (hnamed : d.Named)
    (hfinals : ∀ q ∈ d.finals, q.IsScalar) :
    ((∃ defect, d.build = .error defect) ↔ ∃ rule, ¬ d.Obeys rule) ∧
    (∀ defect, d.build = .error defect ↔
      d.ObeysBelow defect.rule.number ∧ d.Offends defect) ∧
    ∀ defect missing extra, d.build = .error defect →
      (defect = .rowsDiffer missing extra ∨ ∃ q, defect = .entriesDiffer q missing extra) →
      (∀ a ∈ missing, .text a ∉ extra) ∧ ¬ (missing.toList = [] ∧ extra = []) := by
  have hbuild : ∀ {defect}, d.build = .error defect ↔
      d.ObeysBelow defect.rule.number ∧ d.Offends defect :=
    build_eq_error_iff.trans (defect?_eq_some_iff_offends hstates hsymbols hnamed hfinals)
  refine ⟨exists_build_eq_error_iff, fun defect => hbuild, fun defect missing extra herror => ?_⟩
  obtain ⟨hbelow, hoffends⟩ := hbuild.1 herror
  have hnumber := hoffends.number_le
  have hstate := hbelow.state_named (Nat.lt_of_lt_of_le (by decide) hnumber)
  have hsymbol := hbelow.symbol_named hnumber
  rintro (rfl | ⟨q, rfl⟩)
  · cases hoffends with
    | rows hdiffer =>
      exact ⟨hdiffer.disjoint, hdiffer.not_both_empty hstate hnamed.row⟩
  · cases hoffends with
    | entries hq hrow hdiffer =>
      exact ⟨hdiffer.disjoint, hdiffer.not_both_empty hsymbol (hnamed.names_of_get? hrow)⟩

/-- A description with offenders against the last three rules. -/
def withManyOffenders : Description where
  states := [.text "b", .text "a"]
  symbols := [.text "1", .text "0"]
  table := [
    (.text "b", [(.text "0", .text "x"), (.text "1", .int 7)]),
    (.text "a", [(.text "1", .text "y"), (.text "0", .null)])]
  initial := .text "z"
  finals := [.text "q", .text "it's"]

/-- The least offender is the target for the second symbol in the row that is given last. -/
theorem withManyOffenders_names_least_offender :
    withManyOffenders.stateDefect? = none ∧ withManyOffenders.symbolDefect? = none ∧
      withManyOffenders.Named ∧ (∀ q ∈ withManyOffenders.finals, q.IsScalar) ∧
      withManyOffenders.build = .error (.unknownTarget "a" "1" (.text "y")) ∧
      withManyOffenders.ObeysBelow Rule.targetsKnown.number ∧
      withManyOffenders.Offends (.unknownTarget "a" "1" (.text "y")) := by
  have hstates : withManyOffenders.stateDefect? = none := by decide
  have hsymbols : withManyOffenders.symbolDefect? = none := by decide
  have hnamed : withManyOffenders.Named := by
    constructor
    · simp [withManyOffenders, Fields.names]
    · simp only [withManyOffenders, Fields.names, List.forall_mem_cons, List.map_cons]
      simp
  have hfinals : ∀ q ∈ withManyOffenders.finals, q.IsScalar := by
    simp [withManyOffenders, Datum.IsScalar]
  have hbuild : withManyOffenders.build = .error (.unknownTarget "a" "1" (.text "y")) :=
    build_eq_error_iff.2 (by decide)
  exact ⟨hstates, hsymbols, hnamed, hfinals, hbuild,
    ((defect_names_least_offender hstates hsymbols hnamed hfinals).2.1 _).1 hbuild⟩

end Description
end WordAutomata
