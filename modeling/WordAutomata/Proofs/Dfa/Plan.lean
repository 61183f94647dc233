import Mathlib.Data.List.Nodup
import Mathlib.Data.List.Perm.Basic
import Mathlib.Data.Prod.Basic
import WordAutomata.Dfa.Diagram
import WordAutomata.Proofs.Dfa.Construction

/-!
# Diagrams drawn from plans

The states and symbols of a plan are of any types; a diagram is drawn from it by naming them. If
nothing in the plan is repeated, its arcs stay inside it and different things have different names,
then the diagram is that of an automaton whose transitions are the arcs. What is to be shown of a
family of diagrams is so a matter of the data behind the names.
-/
namespace WordAutomata

/-- States, symbols and arcs before they are named. -/
structure Plan (σ β : Type) where
  states : List σ
  symbols : List β
  arcs : List (σ × β × σ)
  initial : σ
  finals : List σ

namespace Plan

variable {σ β σ' β' : Type}

def map (name : σ → σ') (symbol : β → β') (P : Plan σ β) : Plan σ' β' where
  states := P.states.map name
  symbols := P.symbols.map symbol
  arcs := P.arcs.map fun (q, a, r) => (name q, symbol a, name r)
  initial := name P.initial
  finals := P.finals.map name

def diagram (P : Plan String String) : Diagram :=
  .ofNames P.states P.symbols P.arcs P.initial P.finals

/-- A plan repeats nothing, not even the start and symbol of an arc, and leaves nothing out. -/
structure Fit (P : Plan σ β) : Prop where
  states_nodup : P.states.Nodup
  symbols_nodup : P.symbols.Nodup
  symbols_ne_nil : P.symbols ≠ []
  arcs_nodup : (P.arcs.map fun arc => (arc.1, arc.2.1)).Nodup
  arc_mem : ∀ q a r, (q, a, r) ∈ P.arcs → q ∈ P.states ∧ a ∈ P.symbols ∧ r ∈ P.states
  initial_mem : P.initial ∈ P.states
  final_mem : ∀ q ∈ P.finals, q ∈ P.states

theorem fit_iff {P : Plan σ β} : P.Fit ↔ P.states.Nodup ∧ P.symbols.Nodup ∧ P.symbols ≠ [] ∧
    (P.arcs.map fun arc => (arc.1, arc.2.1)).Nodup ∧
    (∀ arc ∈ P.arcs, arc.1 ∈ P.states ∧ arc.2.1 ∈ P.symbols ∧ arc.2.2 ∈ P.states) ∧
    P.initial ∈ P.states ∧ ∀ q ∈ P.finals, q ∈ P.states := by
  constructor
  · intro h
    exact ⟨h.states_nodup, h.symbols_nodup, h.symbols_ne_nil, h.arcs_nodup,
      fun ⟨q, a, r⟩ harc => h.arc_mem q a r harc, h.initial_mem, h.final_mem⟩
  · rintro ⟨hstates, hsymbols, hne, harcs, hmem, hinitial, hfinals⟩
    exact ⟨hstates, hsymbols, hne, harcs, fun q a r harc => hmem (q, a, r) harc, hinitial, hfinals⟩

instance [DecidableEq σ] [DecidableEq β] (P : Plan σ β) : Decidable P.Fit :=
  decidable_of_iff _ fit_iff.symm

theorem target_unique_of_nodup {arcs : List (σ × β × σ)}
    (h : (arcs.map fun arc => (arc.1, arc.2.1)).Nodup) {q r r' : σ} {a : β}
    (hr : (q, a, r) ∈ arcs) (hr' : (q, a, r') ∈ arcs) : r = r' := by
  have harc : (q, a, r) = (q, a, r') := List.inj_on_of_nodup_map h hr hr' rfl
  cases harc
  rfl

/-- An automaton has the parts of a plan. -/
structure Depicts (P : Plan String String) (M : Dfa) : Prop where
  states : M.states.toList.Perm P.states
  symbols : M.alphabet.toList.Perm P.symbols
  initial : M.initial = P.initial
  finals : ∀ q, q ∈ M.finals ↔ q ∈ P.finals
  next?_iff : ∀ q a r, M.next? q a = some r ↔ (q, a, r) ∈ P.arcs

theorem mem_arcs_map {P : Plan σ β} {name : σ → σ'} {symbol : β → β'} {q r : σ'} {a : β'} :
    (q, a, r) ∈ (P.map name symbol).arcs ↔
      ∃ s b t, (s, b, t) ∈ P.arcs ∧ name s = q ∧ symbol b = a ∧ name t = r := by
  simp only [map, List.mem_map, Prod.mk.injEq, Prod.exists]

theorem Fit.map {P : Plan σ β} (h : P.Fit) {name : σ → σ'} {symbol : β → β'}
    (hname : Function.Injective name) (hsymbol : Function.Injective symbol) :
    (P.map name symbol).Fit where
  states_nodup := h.states_nodup.map hname
  symbols_nodup := h.symbols_nodup.map hsymbol
  symbols_ne_nil := by simpa [Plan.map] using h.symbols_ne_nil
  arcs_nodup := by
    have hkeys := h.arcs_nodup.map (hname.prodMap hsymbol)
    rw [List.map_map] at hkeys
    simpa [Plan.map, Function.comp_def] using hkeys
  arc_mem := by
    intro q a r hmem
    obtain ⟨s, b, t, harc, rfl, rfl, rfl⟩ := mem_arcs_map.1 hmem
    obtain ⟨hs, hb, ht⟩ := h.arc_mem s b t harc
    exact ⟨List.mem_map_of_mem hs, List.mem_map_of_mem hb, List.mem_map_of_mem ht⟩
  initial_mem := List.mem_map_of_mem h.initial_mem
  final_mem := by
    intro q hq
    obtain ⟨s, hs, rfl⟩ := List.mem_map.1 hq
    exact List.mem_map_of_mem (h.final_mem s hs)

/-- Two arcs with one start and one symbol are the same arc. -/
theorem Fit.target_unique {P : Plan σ β} (h : P.Fit) {q r r' : σ} {a : β}
    (hr : (q, a, r) ∈ P.arcs) (hr' : (q, a, r') ∈ P.arcs) : r = r' :=
  target_unique_of_nodup h.arcs_nodup hr hr'

end Plan

/-- Lists that are put together repeat nothing, if none of them does and every element shows which
list it is from. -/
theorem nodup_flatMap_of_tag {α β : Type} {xs : List α} {f : α → List β} (tag : β → α)
    (hxs : xs.Nodup) (hf : ∀ x ∈ xs, (f x).Nodup) (htag : ∀ x ∈ xs, ∀ y ∈ f x, tag y = x) :
    (xs.flatMap f).Nodup := by
  rw [List.nodup_flatMap]
  refine ⟨hf, hxs.imp_of_mem ?_⟩
  intro x x' hx hx' hne
  show (f x).Disjoint (f x')
  intro y hy hy'
  exact hne ((htag x hx y hy).symm.trans (htag x' hx' y hy'))

/-! ## Looking up in what a diagram describes -/

namespace Datum

@[simp] theorem names_map_text (names : List String) : Datum.names (names.map text) = names := by
  rw [Datum.names, List.filterMap_map]
  exact List.filterMap_some

theorem mem_map_text {a : String} {names : List String} : text a ∈ names.map text ↔ a ∈ names :=
  List.mem_map_of_injective text_injective

end Datum

/-- What is found under a name in a function of names that is tabulated as data. -/
theorem Fields.get?_map_text {α : Type} (names : List String) (f : String → α) (a : String) :
    get? (names.map fun n => (Datum.text n, f n)) (.text a) =
      if a ∈ names then some (f a) else none := by
  have h := get?_map Datum.text_injective id (names.map fun n => (n, f n)) a
  rw [get?_map_pair, List.map_map, Option.map_id] at h
  exact h

namespace Diagram

variable {P : Plan String String} {q a r : String}

/-- The arc of a diagram with some names. -/
def arcOf : String × String × String → Arc
  | (q, a, r) => ⟨.text q, .text a, .text r⟩

/-- Arcs that are fit are taken, and what is behind them decides. -/
theorem arcDefectAfter?_append {states symbols : List Datum} {arcs : List Arc}
    (hmem : ∀ arc ∈ arcs, arc.source ∈ states ∧ arc.symbol ∈ symbols ∧ arc.target ≠ .null)
    (hnodup : (arcs.map fun arc => (arc.source, arc.symbol)).Nodup) (rest : List Arc) :
    ∀ taken : List (Datum × Datum), (∀ arc ∈ arcs, (arc.source, arc.symbol) ∉ taken) →
      arcDefectAfter? states symbols taken (arcs ++ rest) = arcDefectAfter? states symbols
        ((arcs.map fun arc => (arc.source, arc.symbol)).reverse ++ taken) rest := by
  induction arcs with
  | nil =>
    intro taken _
    rfl
  | cons arc arcs ih =>
    intro taken hfresh
    obtain ⟨hsource, hsymbol, htarget⟩ := hmem arc List.mem_cons_self
    have hrest := ih fun arc h => hmem arc (List.mem_cons_of_mem _ h)
    obtain ⟨hhead, htail⟩ := List.nodup_cons.1 hnodup
    rw [List.cons_append, arcDefectAfter?, if_neg (not_not_intro hsource),
      if_neg (not_not_intro hsymbol), if_neg (hfresh arc List.mem_cons_self), if_neg htarget,
      List.map_cons, List.reverse_cons, List.append_assoc]
    refine hrest htail _ ?_
    intro other hother htaken
    rcases List.mem_cons.1 htaken with he | htaken
    · exact hhead (List.mem_map.2 ⟨other, hother, he⟩)
    · exact hfresh other (List.mem_cons_of_mem _ hother) htaken

/-- Behind fit arcs with names the search for a defect goes on with their starts and symbols
taken. -/
theorem arcDefectAfter?_map_append {states symbols : List String}
    {arcs : List (String × String × String)}
    (hknown : ∀ q a r, (q, a, r) ∈ arcs → q ∈ states ∧ a ∈ symbols)
    (hnodup : (arcs.map fun arc => (arc.1, arc.2.1)).Nodup) (rest : List Arc) :
    arcDefectAfter? (states.map .text) (symbols.map .text) [] (arcs.map arcOf ++ rest) =
      arcDefectAfter? (states.map .text) (symbols.map .text)
        ((arcs.map fun arc => (arc.1, arc.2.1)).map (Prod.map Datum.text Datum.text)).reverse
        rest := by
  have hmem : ∀ arc ∈ arcs.map arcOf, arc.source ∈ states.map Datum.text ∧
      arc.symbol ∈ symbols.map Datum.text ∧ arc.target ≠ .null := by
    intro arc harc
    obtain ⟨⟨q, a, r⟩, hmem, rfl⟩ := List.mem_map.1 harc
    obtain ⟨hq, ha⟩ := hknown q a r hmem
    exact ⟨Datum.mem_map_text.2 hq, Datum.mem_map_text.2 ha, by simp [arcOf]⟩
  have hkeys : ((arcs.map arcOf).map fun arc => (arc.source, arc.symbol)) =
      (arcs.map fun arc => (arc.1, arc.2.1)).map (Prod.map Datum.text Datum.text) := by
    rw [List.map_map, List.map_map]
    rfl
  have hdata := hnodup.map (Datum.text_injective.prodMap Datum.text_injective)
  rw [arcDefectAfter?_append hmem (hkeys ▸ hdata) rest [] (by simp), hkeys, List.append_nil]

theorem arcDefect?_diagram (h : P.Fit) : P.diagram.arcDefect? = none := by
  have hknown : ∀ q a r, (q, a, r) ∈ P.arcs → q ∈ P.states ∧ a ∈ P.symbols := by
    intro q a r hmem
    obtain ⟨hq, ha, -⟩ := h.arc_mem q a r hmem
    exact ⟨hq, ha⟩
  have hnone := arcDefectAfter?_map_append hknown h.arcs_nodup []
  rw [List.append_nil] at hnone
  exact hnone

/-- The entry of a state and a symbol is the target of an arc, or nothing if there is no arc. -/
theorem targetOn_cases (P : Plan String String) (q a : String) :
    (∃ r, (q, a, r) ∈ P.arcs ∧
      targetOn a (P.diagram.arcs.filter fun arc => arc.source = .text q) = .text r) ∨
    ((∀ r, (q, a, r) ∉ P.arcs) ∧
      targetOn a (P.diagram.arcs.filter fun arc => arc.source = .text q) = .null) := by
  cases hfind : (P.diagram.arcs.filter fun arc => arc.source = .text q).find? fun arc =>
      arc.symbol = .text a ∧ arc.target ≠ .null with
  | some arc =>
    have hp := List.find?_some hfind
    obtain ⟨hmem, hsource⟩ := List.mem_filter.1 (List.mem_of_find?_eq_some hfind)
    obtain ⟨⟨s, b, t⟩, harc, rfl⟩ := List.mem_map.1 hmem
    simp only [decide_eq_true_eq, Datum.text.injEq] at hp hsource
    obtain ⟨rfl, -⟩ := hp
    subst hsource
    exact .inl ⟨t, harc, by rw [targetOn, hfind]; rfl⟩
  | none =>
    refine .inr ⟨fun r harc => ?_, by rw [targetOn, hfind]; rfl⟩
    have hmem : arcOf (q, a, r) ∈ P.diagram.arcs.filter fun arc => arc.source = .text q :=
      List.mem_filter.2 ⟨List.mem_map_of_mem harc, by simp [arcOf]⟩
    have hnone := List.find?_eq_none.1 hfind _ hmem
    simp [arcOf] at hnone

theorem names_table (D : Diagram) :
    D.description.table.names = (Datum.names D.states).map .text := by
  rw [description, Fields.names, List.map_map]
  rfl

theorem names_row (D : Diagram) (q : String) :
    (D.row q).names = (Datum.names D.symbols).map .text := by
  simp only [row, Fields.names, List.map_map]
  rfl

theorem get?_table (D : Diagram) (q : String) : D.description.table.get? (.text q) =
    if q ∈ Datum.names D.states then some (D.row q) else none := Fields.get?_map_text _ _ q

theorem get?_row (D : Diagram) (q a : String) : (D.row q).get? (.text a) =
    if a ∈ Datum.names D.symbols then
      some (targetOn a (D.arcs.filter fun arc => arc.source = .text q))
    else none := Fields.get?_map_text _ _ a

theorem names_diagram_states (P : Plan String String) :
    Datum.names P.diagram.states = P.states := Datum.names_map_text _

theorem names_diagram_symbols (P : Plan String String) :
    Datum.names P.diagram.symbols = P.symbols := Datum.names_map_text _

theorem legal_description (h : P.Fit) (hstate : ∀ q ∈ P.states, q ≠ "")
    (hsymbol : ∀ a ∈ P.symbols, a ≠ "" ∧ ',' ∉ a.toList) : P.diagram.description.Legal := by
  constructor
  · intro q hq
    obtain ⟨s, hs, rfl⟩ := List.mem_map.1 hq
    exact ⟨s, rfl, hstate s hs⟩
  · exact Datum.nodup_map_text h.states_nodup
  · intro hnil
    exact h.symbols_ne_nil (List.map_eq_nil_iff.1 hnil)
  · intro a ha
    obtain ⟨b, hb, rfl⟩ := List.mem_map.1 ha
    exact ⟨b, rfl, hsymbol b hb⟩
  · exact Datum.nodup_map_text h.symbols_nodup
  · intro q
    rw [names_table, names_diagram_states]
    rfl
  · intro q hq row hrow a
    obtain ⟨s, hs, rfl⟩ := List.mem_map.1 hq
    rw [get?_table, names_diagram_states, if_pos hs] at hrow
    cases hrow
    rw [names_row, names_diagram_symbols]
    rfl
  · intro q hq row hrow a ha target htarget
    obtain ⟨s, hs, rfl⟩ := List.mem_map.1 hq
    obtain ⟨b, hb, rfl⟩ := List.mem_map.1 ha
    rw [get?_table, names_diagram_states, if_pos hs] at hrow
    cases hrow
    rw [get?_row, names_diagram_symbols, if_pos hb] at htarget
    cases htarget
    rcases targetOn_cases P s b with ⟨r, harc, hr⟩ | ⟨-, hnull⟩
    · rw [hr]
      exact .inr (List.mem_map_of_mem (h.arc_mem s b r harc).2.2)
    · exact .inl hnull
  · exact List.mem_map_of_mem h.initial_mem
  · intro q hq
    obtain ⟨s, hs, rfl⟩ := List.mem_map.1 hq
    exact List.mem_map_of_mem (h.final_mem s hs)

end Diagram

/-- An entry that is not dead belongs to a state and a symbol. -/
theorem Dfa.mem_of_next? {M : Dfa} {q a r : String} (h : M.next? q a = some r) :
    q ∈ M.states ∧ a ∈ M.alphabet.symbols := by
  rw [next?, M.get?_table q] at h
  by_cases hq : q ∈ M.states
  · rw [if_pos hq, Option.bind_some, Fields.get?_map_pair] at h
    by_cases ha : a ∈ M.alphabet.symbols
    · exact ⟨hq, ha⟩
    · rw [if_neg (show a ∉ M.alphabet.toList from ha)] at h
      cases h
  · rw [if_neg hq] at h
    cases h

namespace Plan

variable {P : Plan String String}

/-- An automaton described by the diagram of a plan has the parts of the plan. -/
theorem Depicts.of_describes (h : P.Fit) {M : Dfa} (hM : P.diagram.description.Describes M) :
    P.Depicts M := by
  have hstates : M.states.toList.Perm P.states :=
    (List.map_perm_map_iff Datum.text_injective).1 hM.states
  have hsymbols : M.alphabet.toList.Perm P.symbols :=
    (List.map_perm_map_iff Datum.text_injective).1 hM.symbols
  refine ⟨hstates, hsymbols, Datum.text_injective hM.initial, ?_, ?_⟩
  · intro q
    have hfinal := hM.finals (.text q)
    rw [Dfa.isFinal, Datum.isIn_text] at hfinal
    exact hfinal.symm.trans Datum.mem_map_text
  · -- Under a state and a symbol the table of the automaton has what the row of the diagram has.
    have hentry : ∀ q ∈ P.states, ∀ a ∈ P.symbols, Document.targetDatum (M.next? q a) =
        Diagram.targetOn a (P.diagram.arcs.filter fun arc => arc.source = .text q) := by
      intro q hq a ha
      obtain ⟨row, given, target, hrow, htarget, hgiven, hgot⟩ :=
        hM.entries q (hstates.mem_iff.2 hq) a (hsymbols.mem_iff.2 ha)
      have hnext : M.next? q a = target := by
        rw [Dfa.next?, hrow, Option.bind_some, htarget]
        rfl
      rw [Diagram.get?_table, Diagram.names_diagram_states, if_pos hq] at hgiven
      cases hgiven
      rw [Diagram.get?_row, Diagram.names_diagram_symbols, if_pos ha] at hgot
      rw [hnext]
      exact (Option.some.inj hgot).symm
    intro q a r
    constructor
    · intro hnext
      obtain ⟨hq, ha⟩ := Dfa.mem_of_next? hnext
      have heq := hentry q (hstates.mem_iff.1 hq) a (hsymbols.mem_iff.1 ha)
      rw [hnext] at heq
      rcases Diagram.targetOn_cases P q a with ⟨r', harc, hr'⟩ | ⟨-, hnull⟩
      · rw [hr'] at heq
        cases heq
        exact harc
      · rw [hnull] at heq
        cases heq
    · intro harc
      obtain ⟨hq, ha, -⟩ := h.arc_mem q a r harc
      have heq := hentry q hq a ha
      rcases Diagram.targetOn_cases P q a with ⟨r', harc', hr'⟩ | ⟨hnone, -⟩
      · rw [hr', ← h.target_unique harc harc'] at heq
        exact Document.targetDatum_injective heq
      · exact absurd harc (hnone r)

theorem exists_build (h : P.Fit) (hstate : ∀ q ∈ P.states, q ≠ "")
    (hsymbol : ∀ a ∈ P.symbols, a ≠ "" ∧ ',' ∉ a.toList) :
    ∃ M, P.diagram.build = .ok M ∧ P.Depicts M := by
  have hlegal := Diagram.legal_description h hstate hsymbol
  have hnone := Description.defect?_eq_none_iff_legal.2 hlegal
  refine ⟨P.diagram.description.ofFit hnone, ?_, .of_describes h (Description.ofFit_describes hnone)⟩
  rw [Diagram.build, Diagram.arcDefect?_diagram h, Description.build_eq_ok_iff.2 ⟨hnone, rfl⟩]
  rfl

end Plan
end WordAutomata
