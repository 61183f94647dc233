import WordAutomata.Dfa.Numbered
import WordAutomata.Document
import WordAutomata.Proofs.Dfa.Construction
import WordAutomata.Proofs.Text.Quoted

/-!
# The order of a description leaves no trace

Two descriptions that list the same states, symbols, table entries and final states in different
orders break the same rule with the same offender, or give the same automaton. Past the scans every
rule looks at sets, and picks the offender by an order of its own: by code point, or, among the
final states, by quoted form, which no two of them share.
-/
namespace WordAutomata

/-- Tables in which the same is found under every state and symbol, whatever the order of rows and
entries. -/
def SameEntries (s t : Fields Datum (Fields Datum Datum)) : Prop :=
  ∀ q, Option.Rel (fun given given' => ∀ a, given.get? a = given'.get? a) (s.get? q) (t.get? q)

/-- Descriptions of the same things in different orders. Final states may be repeated
differently. -/
structure Description.Reorders (d e : Description) : Prop where
  states : d.states.Perm e.states
  symbols : d.symbols.Perm e.symbols
  table : SameEntries d.table e.table
  initial : d.initial = e.initial
  finals : ∀ q, q ∈ d.finals ↔ q ∈ e.finals

namespace Fields

variable {κ α β : Type} [DecidableEq κ]

/-- Tables in which something is found under the same names have the same names. -/
theorem mem_names_congr {s : Fields κ α} {t : Fields κ β} {name : κ}
    (h : (s.get? name).isSome = (t.get? name).isSome) : name ∈ s.names ↔ name ∈ t.names := by
  rw [← isSome_get?_iff, ← isSome_get?_iff, h]

end Fields

theorem SameEntries.isSome_eq {s t : Fields Datum (Fields Datum Datum)} (h : SameEntries s t)
    (q : Datum) : (s.get? q).isSome = (t.get? q).isSome := by
  have hq := h q
  generalize s.get? q = given, t.get? q = given' at hq ⊢
  cases hq <;> rfl

theorem Names.ofList_names_congr {xs ys : List Datum} (h : ∀ d, d ∈ xs ↔ d ∈ ys) :
    ofList (Datum.names xs) = ofList (Datum.names ys) := by
  rw [ofList_eq_ofList_iff]
  intro a
  rw [Datum.mem_names, Datum.mem_names, h]

namespace Description

/-! ## Rules that look at sets -/

/-- The differences from a set of names do not depend on the order of the given names. -/
theorem differences?_congr (expected : Names) {xs ys : List Datum} (h : ∀ d, d ∈ xs ↔ d ∈ ys)
    (hx : ∀ d ∈ xs, ∃ s, d = .text s) : differences? expected xs = differences? expected ys := by
  have hy : ∀ d ∈ ys, ∃ s, d = .text s := fun d hd => hx d ((h d).2 hd)
  simp only [differences?, Datum.filter_isNone_asText? hx, Datum.filter_isNone_asText? hy,
    Names.ofList_names_congr h]

/-! ## The least offender among the final states -/

theorem leastQuoted?_mem {items : List Datum} {d : Datum} (h : leastQuoted? items = some d) :
    d ∈ items := by
  induction items generalizing d with
  | nil => cases h
  | cons e rest ih =>
    rw [leastQuoted?] at h
    cases hrest : leastQuoted? rest with
    | none =>
      rw [hrest] at h
      cases h
      exact List.mem_cons_self
    | some f =>
      rw [hrest] at h
      simp only [Option.some.injEq] at h
      split at h
      · exact List.mem_cons_of_mem _ (ih (h ▸ hrest))
      · exact h ▸ List.mem_cons_self

theorem leastQuoted?_le {items : List Datum} {d : Datum} (h : leastQuoted? items = some d) :
    ∀ e ∈ items, ¬ e.quoted < d.quoted := by
  induction items generalizing d with
  | nil => cases h
  | cons e rest ih =>
    rw [leastQuoted?] at h
    cases hrest : leastQuoted? rest with
    | none =>
      rw [hrest] at h
      cases h
      rw [leastQuoted?_eq_none_iff.1 hrest]
      intro f hf
      rw [List.mem_singleton.1 hf]
      exact String.lt_irrefl _
    | some f =>
      rw [hrest] at h
      simp only [Option.some.injEq] at h
      have hle := ih hrest
      intro x hx
      split at h
      · rename_i hlt
        rcases List.mem_cons.1 hx with rfl | hx
        · exact h ▸ String.lt_asymm hlt
        · exact h ▸ hle x hx
      · rename_i hnot
        subst h
        rcases List.mem_cons.1 hx with rfl | hx
        · exact String.lt_irrefl _
        · intro hlt
          rcases Std.lt_trichotomy x.quoted f.quoted with hxf | hxf | hxf
          · exact hle x hx hxf
          · exact hnot (hxf ▸ hlt)
          · exact hnot (String.lt_trans hxf hlt)

/-- Among scalars the one with the least quoted form is the same in every order. -/
theorem leastQuoted?_congr {xs ys : List Datum} (h : ∀ d, d ∈ xs ↔ d ∈ ys)
    (hx : ∀ d ∈ xs, d.IsScalar) : leastQuoted? xs = leastQuoted? ys := by
  cases hxs : leastQuoted? xs with
  | none =>
    have hnil : ys = [] := by
      rw [leastQuoted?_eq_none_iff.1 hxs] at h
      exact List.eq_nil_iff_forall_not_mem.2 fun d hd => List.not_mem_nil ((h d).2 hd)
    exact (leastQuoted?_eq_none_iff.2 hnil).symm
  | some d =>
    have hd := leastQuoted?_mem hxs
    cases hys : leastQuoted? ys with
    | none =>
      rw [leastQuoted?_eq_none_iff.1 hys] at h
      exact absurd ((h d).1 hd) List.not_mem_nil
    | some e =>
      have he := (h e).2 (leastQuoted?_mem hys)
      have hquoted : d.quoted = e.quoted := by
        rcases Std.lt_trichotomy d.quoted e.quoted with hlt | heq | hlt
        · exact absurd hlt (leastQuoted?_le hys d ((h d).1 hd))
        · exact heq
        · exact absurd hlt (leastQuoted?_le hxs e he)
      rw [Datum.eq_of_quoted_eq (hx d hd) (hx e he) hquoted]

namespace Reorders

variable {d e : Description}

theorem stateSet_eq (h : d.Reorders e) : d.stateSet = e.stateSet :=
  Names.ofList_names_congr fun _ => h.states.mem_iff

theorem symbolSet_eq (h : d.Reorders e) : d.symbolSet = e.symbolSet :=
  Names.ofList_names_congr fun _ => h.symbols.mem_iff

theorem stateDefect?_eq (h : d.Reorders e) (hs : d.stateDefect? = none) :
    d.stateDefect? = e.stateDefect? := by
  obtain ⟨hnamed, hnodup⟩ := stateDefect?_eq_none_iff.1 hs
  rw [hs, stateDefect?_eq_none_iff.2]
  exact ⟨fun q hq => hnamed q (h.states.mem_iff.2 hq), h.states.nodup_iff.1 hnodup⟩

theorem symbolDefect?_eq (h : d.Reorders e) (hs : d.symbolDefect? = none) :
    d.symbolDefect? = e.symbolDefect? := by
  obtain ⟨hne, hnamed, hnodup⟩ := symbolDefect?_eq_none_iff.1 hs
  rw [hs, symbolDefect?_eq_none_iff.2]
  refine ⟨?_, fun a ha => hnamed a (h.symbols.mem_iff.2 ha), h.symbols.nodup_iff.1 hnodup⟩
  intro hnil
  exact hne (hnil ▸ h.symbols).eq_nil

theorem rowsDefect?_eq (h : d.Reorders e) (hn : d.Named) : d.rowsDefect? = e.rowsDefect? := by
  have hnames := differences?_congr e.stateSet
    (fun q => Fields.mem_names_congr (h.table.isSome_eq q)) hn.row
  rw [rowsDefect?, rowsDefect?, h.stateSet_eq, hnames]

/-- In the row of a state the same is found in both descriptions, if the state has a row. -/
theorem get?_row (h : d.Reorders e) (q : String) (a : Datum) :
    (d.row q).get? a = (e.row q).get? a := by
  have hq := h.table (.text q)
  rw [Description.row, Description.row]
  generalize d.table.get? (.text q) = given, e.table.get? (.text q) = given' at hq ⊢
  cases hq with
  | none => rfl
  | some hrow => exact hrow a

theorem entry_eq (h : d.Reorders e) (q a : String) : d.entry q a = e.entry q a := by
  rw [entry, entry, h.get?_row]

theorem entriesDefect?_eq (h : d.Reorders e) (hn : d.Named) :
    d.entriesDefect? = e.entriesDefect? := by
  have hrow : ∀ q, differences? e.symbolSet (d.row q).names =
      differences? e.symbolSet (e.row q).names := by
    intro q
    refine differences?_congr _ (fun a => Fields.mem_names_congr ?_) (hn.names_row q)
    rw [h.get?_row]
  simp only [entriesDefect?, h.stateSet_eq, h.symbolSet_eq, hrow]

theorem targetDefect?_eq (h : d.Reorders e) : d.targetDefect? = e.targetDefect? := by
  simp only [targetDefect?, h.stateSet_eq, h.symbolSet_eq, h.entry_eq]

theorem initialDefect?_eq (h : d.Reorders e) : d.initialDefect? = e.initialDefect? := by
  rw [initialDefect?, initialDefect?, h.stateSet_eq, h.initial]

theorem finalDefect?_eq (h : d.Reorders e) (hf : ∀ q ∈ d.finals, q.IsScalar) :
    d.finalDefect? = e.finalDefect? := by
  have hunknown : leastQuoted? d.unknownFinals = leastQuoted? e.unknownFinals := by
    refine leastQuoted?_congr (fun q => ?_) fun q hq => hf q (List.mem_filter.1 hq).1
    simp only [unknownFinals, List.mem_filter, h.finals q, h.stateSet_eq]
  rw [finalDefect?, finalDefect?, hunknown]

/-- The first rule that is broken and its offender do not depend on the order. -/
theorem defect?_eq (h : d.Reorders e) (hs : d.stateDefect? = none) (ha : d.symbolDefect? = none)
    (hn : d.Named) (hf : ∀ q ∈ d.finals, q.IsScalar) : d.defect? = e.defect? := by
  rw [Description.defect?, Description.defect?, h.stateDefect?_eq hs, h.symbolDefect?_eq ha,
    h.rowsDefect?_eq hn, h.entriesDefect?_eq hn, h.targetDefect?_eq, h.initialDefect?_eq,
    h.finalDefect?_eq hf]

theorem ofFit_eq (h : d.Reorders e) (hd : d.defect? = none) (he : e.defect? = none) :
    d.ofFit hd = e.ofFit he := by
  have htarget : d.target? = e.target? := by
    funext q a
    rw [target?, target?, h.entry_eq]
  refine Dfa.ext h.stateSet_eq (Alphabet.ext h.symbolSet_eq) ?_ ?_ ?_
  · show TransitionTable.tabulate d.stateSet d.symbolSet d.target? = _
    rw [h.stateSet_eq, h.symbolSet_eq, htarget]
    rfl
  · show d.initial.asText?.getD "" = _
    rw [h.initial]
    rfl
  · exact Names.ofList_names_congr h.finals

theorem build_eq_of_defect?_eq (h : d.Reorders e) (hdefect : d.defect? = e.defect?) :
    d.build = e.build := by
  cases hd : d.defect? with
  | none =>
    have he : e.defect? = none := hdefect.symm.trans hd
    rw [build_eq_ok_iff.2 ⟨hd, rfl⟩, h.ofFit_eq hd he, build_eq_ok_iff.2 ⟨he, rfl⟩]
  | some defect =>
    have he : e.defect? = some defect := hdefect.symm.trans hd
    rw [build_eq_error_iff.2 hd, build_eq_error_iff.2 he]

/-- Descriptions of the same things build the same automaton, or fail with the same defect. -/
theorem build_eq (h : d.Reorders e) (hs : d.stateDefect? = none) (ha : d.symbolDefect? = none)
    (hn : d.Named) (hf : ∀ q ∈ d.finals, q.IsScalar) : d.build = e.build :=
  h.build_eq_of_defect?_eq (h.defect?_eq hs ha hn hf)

end Reorders

/-- Two descriptions of the same things, of which the states and symbols pass their scans, build
automata that show the same parts, the same display, transitions and numbered form, and are written
as the same text; or both fail with one defect, so with the same missing and extra names and the
same first offender. Every final state is a name, an integer, a truth value or nothing: real
numbers, lists and records are left out, since of them no more than the kind is quoted. -/
theorem build_forgets_order {d e : Description} (h : d.Reorders e)
    (hstates : d.stateDefect? = none) (hsymbols : d.symbolDefect? = none) (hnamed : d.Named)
    (hfinals : ∀ q ∈ d.finals, q.IsScalar) :
    (∃ M N, d.build = .ok M ∧ e.build = .ok N ∧
      M.states.toList = N.states.toList ∧ M.alphabet.toList = N.alphabet.toList ∧
      M.initial = N.initial ∧ M.finals.toList = N.finals.toList ∧ M.display = N.display ∧
      M.transitions = N.transitions ∧ NumberedDfa.ofDfa M = NumberedDfa.ofDfa N ∧
      M.write = N.write) ∨
    ∃ defect defect', d.build = .error defect ∧ e.build = .error defect' ∧
      defect = defect' ∧ defect.message = defect'.message := by
  have hbuild := h.build_eq hstates hsymbols hnamed hfinals
  cases hd : d.build with
  | ok M => exact .inl ⟨M, M, rfl, hbuild ▸ hd, rfl, rfl, rfl, rfl, rfl, rfl, rfl, rfl⟩
  | error defect => exact .inr ⟨defect, defect, rfl, hbuild ▸ hd, rfl, rfl⟩

/-- A description with final states that are no states. -/
def withUnknownFinals : Description where
  states := [.text "b", .text "a"]
  symbols := [.text "1", .text "0"]
  table := [
    (.text "b", [(.text "1", .null), (.text "0", .text "a")]),
    (.text "a", [(.text "0", .text "b"), (.text "1", .text "a")])]
  initial := .text "a"
  finals := [.text "zz", .int 7, .null, .text "it's", .text "b"]

/-- The same in another order. -/
def withUnknownFinalsReordered : Description where
  states := [.text "a", .text "b"]
  symbols := [.text "0", .text "1"]
  table := [
    (.text "a", [(.text "1", .text "a"), (.text "0", .text "b")]),
    (.text "b", [(.text "1", .null), (.text "0", .text "a")])]
  initial := .text "a"
  finals := [.text "b", .text "it's", .null, .text "it's", .int 7, .text "zz", .text "b"]

theorem withUnknownFinals_reorders : withUnknownFinals.Reorders withUnknownFinalsReordered where
  states := .swap _ _ _
  symbols := .swap _ _ _
  table := by
    intro q
    by_cases hb : q = .text "b"
    · subst hb
      exact .some fun _ => rfl
    by_cases ha : q = .text "a"
    · subst ha
      refine .some fun a => ?_
      by_cases h0 : a = .text "0"
      · subst h0
        rfl
      by_cases h1 : a = .text "1"
      · subst h1
        rfl
      simp [Fields.get?, Ne.symm h0, Ne.symm h1]
    simp [withUnknownFinals, withUnknownFinalsReordered, Fields.get?, Ne.symm ha, Ne.symm hb]
  initial := rfl
  finals := by
    intro q
    simp only [withUnknownFinals, withUnknownFinalsReordered, List.mem_cons]
    grind

/-- Both orders fail with the unknown final state whose quoted form comes first. -/
theorem unknown_finals_build_alike :
    withUnknownFinals.Reorders withUnknownFinalsReordered ∧
      withUnknownFinals.stateDefect? = none ∧ withUnknownFinals.symbolDefect? = none ∧
      withUnknownFinals.Named ∧ (∀ q ∈ withUnknownFinals.finals, q.IsScalar) ∧
      withUnknownFinals.build = .error (.unknownFinal (.text "it's")) ∧
      ((∃ M N, withUnknownFinals.build = .ok M ∧ withUnknownFinalsReordered.build = .ok N ∧
        M.states.toList = N.states.toList ∧ M.alphabet.toList = N.alphabet.toList ∧
        M.initial = N.initial ∧ M.finals.toList = N.finals.toList ∧ M.display = N.display ∧
        M.transitions = N.transitions ∧ NumberedDfa.ofDfa M = NumberedDfa.ofDfa N ∧
        M.write = N.write) ∨
      ∃ defect defect', withUnknownFinals.build = .error defect ∧
        withUnknownFinalsReordered.build = .error defect' ∧ defect = defect' ∧
        defect.message = defect'.message) := by
  have hstates : withUnknownFinals.stateDefect? = none := by decide
  have hsymbols : withUnknownFinals.symbolDefect? = none := by decide
  have hnamed : withUnknownFinals.Named := by
    constructor
    · simp [withUnknownFinals, Fields.names]
    · simp only [withUnknownFinals, Fields.names, List.forall_mem_cons, List.map_cons]
      simp
  have hfinals : ∀ q ∈ withUnknownFinals.finals, q.IsScalar := by
    simp [withUnknownFinals, Datum.IsScalar]
  have hdefect : withUnknownFinals.defect? = some (.unknownFinal (.text "it's")) := by
    decide +kernel
  exact ⟨withUnknownFinals_reorders, hstates, hsymbols, hnamed, hfinals,
    build_eq_error_iff.2 hdefect,
    build_forgets_order withUnknownFinals_reorders hstates hsymbols hnamed hfinals⟩

end Description
end WordAutomata
