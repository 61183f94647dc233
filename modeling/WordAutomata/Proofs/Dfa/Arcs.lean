import Mathlib.Data.List.Induction
import WordAutomata.Proofs.Dfa.Plan
import WordAutomata.Proofs.Dfa.Reordering

/-!
# Arcs entered one after the other

A table begins with nothing under every state and symbol, and the arcs are entered in order. Nothing
means that an entry is still open, and since every arc leads to a name, an arc that was entered can
be told from none. The first arc that finds no entry, or one that is not open, ends this with a
defect of its own. Fit arcs are all entered, and then every entry is the target of the one arc for
it, or nothing.
-/
namespace WordAutomata
namespace Diagram

/-- Where an arc starts and what it carries. -/
def arcKey (arc : String × String × String) : String × String := (arc.1, arc.2.1)

/-- Every arc starts in a state and carries a symbol, and no two arcs start and carry the same. -/
structure ArcsFit (states symbols : List String) (arcs : List (String × String × String)) :
    Prop where
  known : ∀ q a r, (q, a, r) ∈ arcs → q ∈ states ∧ a ∈ symbols
  keys_nodup : (arcs.map arcKey).Nodup

/-- What is wrong with an arc behind others. The state is asked for first, and then the symbol. -/
inductive Unfit (states symbols : List String) (before : List (String × String × String)) :
    String × String × String → DiagramDefect → Prop where
  | source {q a r : String} (hq : q ∉ states) :
      Unfit states symbols before (q, a, r) (.unknownSource (.text q))
  | symbol {q a r : String} (hq : q ∈ states) (ha : a ∉ symbols) :
      Unfit states symbols before (q, a, r) (.unknownSymbol (.text a))
  | repeated {q a r r' : String} (hq : q ∈ states) (ha : a ∈ symbols) (h : (q, a, r') ∈ before) :
      Unfit states symbols before (q, a, r) (.repeatedArc (.text q) (.text a))

/-- The first arc with which something is wrong. -/
def FirstUnfit (states symbols : List String) (arcs : List (String × String × String))
    (defect : DiagramDefect) : Prop :=
  ∃ before arc rest, arcs = before ++ arc :: rest ∧ ArcsFit states symbols before ∧
    Unfit states symbols before arc defect

/-- What stands under a state and a symbol: the target of an arc, or nothing if there is none. -/
inductive Entry (arcs : List (String × String × String)) (q a : String) : Datum → Prop where
  | target {r : String} (h : (q, a, r) ∈ arcs) : Entry arcs q a (.text r)
  | free (h : ∀ r, (q, a, r) ∉ arcs) : Entry arcs q a .null

/-- A table with a row for every state and an entry for every symbol in it, which are those of the
arcs. -/
structure Tabulates (states symbols : List String) (arcs : List (String × String × String))
    (table : Fields Datum (Fields Datum Datum)) : Prop where
  rows : ∀ q, q ∈ table.names ↔ q ∈ states.map Datum.text
  columns : ∀ q row, table.get? q = some row → ∀ a, a ∈ row.names ↔ a ∈ symbols.map Datum.text
  entries : ∀ q a row target, table.get? (.text q) = some row → row.get? (.text a) = some target →
    Entry arcs q a target

/-! ## The first unfit arc -/

section Fit

variable {states symbols : List String} {arcs before rest : List (String × String × String)}
  {arc : String × String × String} {q a r : String} {defect : DiagramDefect}

theorem ArcsFit.nil : ArcsFit states symbols [] := ⟨by simp, .nil⟩

/-- No two fit arcs lead to different targets under one state and symbol. -/
theorem ArcsFit.target_unique (h : ArcsFit states symbols arcs) {r' : String}
    (hr : (q, a, r) ∈ arcs) (hr' : (q, a, r') ∈ arcs) : r = r' :=
  Plan.target_unique_of_nodup h.keys_nodup hr hr'

end Fit

/-! ## Entering arcs -/

/-- The row in which the entries of all symbols are open. -/
def openRow (symbols : List String) : Fields Datum Datum :=
  .ofPairs ((symbols.map Datum.text).map fun a => (a, .null))

/-- The table in which all entries are open. -/
def openTable (states symbols : List String) : Fields Datum (Fields Datum Datum) :=
  .ofPairs ((states.map Datum.text).map fun q => (q, openRow symbols))

end Diagram

namespace Fields

variable {κ α : Type} [DecidableEq κ]

/-- What is found under a name when the pairs of a function are put one after the other. -/
theorem get?_ofPairs_map (names : List κ) (f : κ → α) (name : κ) :
    (ofPairs (names.map fun n => (n, f n))).get? name =
      if name ∈ names then some (f name) else none := by
  induction names using List.reverseRecOn with
  | nil => rfl
  | append_singleton names n ih =>
    rw [ofPairs] at ih
    rw [List.map_append, ofPairs, List.foldl_append, List.map_singleton, List.foldl_cons,
      List.foldl_nil, get?_put, ih]
    by_cases hn : n = name
    · rw [if_pos hn, hn, if_pos (by simp)]
    · have hmem : name ∈ names ++ [n] ↔ name ∈ names := by simp [Ne.symm hn]
      simp only [if_neg hn, hmem]

theorem mem_names_ofPairs_map (names : List κ) (f : κ → α) (name : κ) :
    name ∈ (ofPairs (names.map fun n => (n, f n))).names ↔ name ∈ names := by
  rw [← isSome_get?_iff, get?_ofPairs_map]
  by_cases h : name ∈ names
  · simp [h]
  · simp [h]

/-- Putting a field under a name that is there keeps the names. -/
theorem names_put_of_get? {fields : Fields κ α} {name : κ} {value value' : α}
    (h : fields.get? name = some value') : (fields.put name value).names = fields.names := by
  have hmem : name ∈ fields.names := by
    rw [← isSome_get?_iff, h]
    rfl
  rw [names_put, if_pos hmem]

end Fields

namespace Diagram

variable {states symbols : List String} {arcs before : List (String × String × String)}
  {arc : String × String × String} {q a r : String} {defect : DiagramDefect}
  {table table' : Fields Datum (Fields Datum Datum)}

/-- Fit arcs leave no choice for an entry. -/
theorem Entry.unique (h : ArcsFit states symbols arcs) {d e : Datum} (hd : Entry arcs q a d)
    (he : Entry arcs q a e) : d = e := by
  cases hd with
  | target hr =>
    cases he with
    | target hr' => rw [h.target_unique hr hr']
    | free hnone => exact absurd hr (hnone _)
  | free hnone =>
    cases he with
    | target hr' => exact absurd hr' (hnone _)
    | free => rfl

/-- An entry keeps its target when an arc with another start or symbol is added. -/
theorem Entry.append_of_ne {s b : String} {d : Datum} (h : Entry arcs s b d)
    (hne : (s, b) ≠ (q, a)) : Entry (arcs ++ [(q, a, r)]) s b d := by
  cases h with
  | target hmem => exact .target (List.mem_append_left _ hmem)
  | free hnone =>
    refine .free fun t hmem => ?_
    obtain hmem | hmem := List.mem_append.1 hmem
    · exact hnone t hmem
    · cases List.mem_singleton.1 hmem
      exact hne rfl

namespace Tabulates

theorem exists_row (h : Tabulates states symbols arcs table) (hq : q ∈ states) :
    ∃ row, table.get? (.text q) = some row :=
  Fields.exists_get?_of_mem_names ((h.rows _).2 (Datum.mem_map_text.2 hq))

theorem exists_target (h : Tabulates states symbols arcs table) {q : Datum}
    {row : Fields Datum Datum} (hrow : table.get? q = some row) (ha : a ∈ symbols) :
    ∃ target, row.get? (.text a) = some target :=
  Fields.exists_get?_of_mem_names ((h.columns _ _ hrow _).2 (Datum.mem_map_text.2 ha))

/-- Before any arc all entries are open. -/
theorem nil (states symbols : List String) :
    Tabulates states symbols [] (openTable states symbols) := by
  have hrow : ∀ q row, (openTable states symbols).get? q = some row → row = openRow symbols := by
    intro q row h
    rw [openTable, Fields.get?_ofPairs_map] at h
    split at h
    · exact (Option.some.inj h).symm
    · cases h
  constructor
  case rows => exact Fields.mem_names_ofPairs_map _ _
  case columns =>
    intro q row h
    rw [hrow q row h]
    exact Fields.mem_names_ofPairs_map _ _
  case entries =>
    intro q a row target h htarget
    rw [hrow _ row h, openRow, Fields.get?_ofPairs_map] at htarget
    split at htarget
    · cases htarget
      exact .free fun r => List.not_mem_nil
    · cases htarget

/-- Putting the target of an arc under its state and symbol changes the entry of the arc, and neither
the others of its row nor the other rows. -/
theorem put (h : Tabulates states symbols before table) {row : Fields Datum Datum} {target : Datum}
    (hrow : table.get? (.text q) = some row) (htarget : row.get? (.text a) = some target)
    (r : String) : Tabulates states symbols (before ++ [(q, a, r)])
      (table.put (.text q) (row.put (.text a) (.text r))) := by
  constructor
  case rows =>
    rw [Fields.names_put_of_get? hrow]
    exact h.rows
  case columns =>
    intro s row' hrow'
    rw [Fields.get?_put] at hrow'
    split at hrow'
    · cases hrow'
      rw [Fields.names_put_of_get? htarget]
      exact h.columns _ row hrow
    · exact h.columns s row' hrow'
  case entries =>
    intro s b row' target' hrow' htarget'
    rw [Fields.get?_put] at hrow'
    split at hrow'
    · rename_i hs
      cases hs
      cases hrow'
      rw [Fields.get?_put] at htarget'
      split at htarget'
      · rename_i hb
        cases hb
        cases htarget'
        exact .target (by simp)
      · rename_i hb
        apply (h.entries _ _ row target' hrow htarget').append_of_ne
        intro he
        cases he
        exact hb rfl
    · rename_i hs
      apply (h.entries _ _ row' target' hrow' htarget').append_of_ne
      intro he
      cases he
      exact hs rfl

end Tabulates

end Diagram
end WordAutomata
