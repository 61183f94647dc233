import WordAutomata.Dfa.Basic

/-!
# Entries of a transition table

A table without repeated names is the list of what is found under its names. For an automaton this
means that the look-up of targets determines the table: every state and symbol has one entry, its
target is a state, and nothing is found under any other pair.
-/
namespace WordAutomata

namespace Names

theorem nodup_of_increasing {names : List String} (h : names.Pairwise (· < ·)) : names.Nodup := by
  refine h.imp ?_
  intro a b hab he
  exact String.lt_irrefl b (he ▸ hab)

theorem nodup (s : Names) : s.toList.Nodup := nodup_of_increasing s.increasing

end Names

namespace Fields

variable {κ α : Type} [DecidableEq κ]

theorem mem_of_get?_eq_some {fields : Fields κ α} {name : κ} {value : α}
    (h : fields.get? name = some value) : (name, value) ∈ fields := by
  induction fields with
  | nil => cases h
  | cons field rest ih =>
    rw [get?] at h
    split at h
    · rename_i hn
      cases h
      exact hn ▸ List.mem_cons_self
    · exact List.mem_cons_of_mem _ (ih h)

/-- Where no name is repeated, every field is found under its name. -/
theorem get?_eq_some_of_mem {fields : Fields κ α} (hn : fields.names.Nodup) {name : κ} {value : α}
    (h : (name, value) ∈ fields) : fields.get? name = some value := by
  induction fields with
  | nil => cases h
  | cons field rest ih =>
    obtain ⟨hfresh, hrest⟩ := List.nodup_cons.1 hn
    rw [get?]
    rcases List.mem_cons.1 h with rfl | hmem
    · exact if_pos rfl
    · have hne : field.1 ≠ name := by
        intro he
        exact hfresh (he ▸ List.mem_map_of_mem hmem)
      rw [if_neg hne]
      exact ih hrest hmem

theorem exists_get?_of_mem_names {fields : Fields κ α} {name : κ} (h : name ∈ fields.names) :
    ∃ value, fields.get? name = some value :=
  Option.isSome_iff_exists.1 ((isSome_get?_iff fields name).2 h)

theorem get?_eq_none_iff {fields : Fields κ α} {name : κ} :
    fields.get? name = none ↔ name ∉ fields.names := by
  rw [← isSome_get?_iff, Bool.not_eq_true, Option.isSome_eq_false_iff, Option.isNone_iff_eq_none]

/-- What is found under a name of a tabulated function. -/
theorem get?_map_pair (names : List κ) (f : κ → α) (name : κ) :
    get? (names.map fun n => (n, f n)) name = if name ∈ names then some (f name) else none := by
  induction names with
  | nil => rfl
  | cons n rest ih =>
    rw [List.map_cons, get?]
    by_cases h : n = name
    · simp [h]
    · have hne : name ≠ n := fun he => h he.symm
      rw [if_neg h, ih]
      simp [hne]

/-- Renaming the fields one to one and mapping their values keeps what is found. -/
theorem get?_map {κ' β : Type} [DecidableEq κ'] {f : κ → κ'} (hf : Function.Injective f) (g : α → β)
    (fields : Fields κ α) (name : κ) :
    get? (fields.map fun field => (f field.1, g field.2)) (f name) = (fields.get? name).map g := by
  induction fields with
  | nil => rfl
  | cons field rest ih =>
    rw [List.map_cons, get?, get?]
    by_cases h : field.1 = name
    · rw [if_pos h, if_pos (congrArg f h)]
      rfl
    · rw [if_neg h, if_neg fun he => h (hf he), ih]

omit [DecidableEq κ] in
/-- A function that agrees with the fields tabulates to them. -/
theorem eq_map_pair {fields : Fields κ α} {f : κ → α} (h : ∀ field ∈ fields, f field.1 = field.2) :
    fields = fields.names.map fun n => (n, f n) := by
  rw [names, List.map_map]
  refine (List.map_id fields).symm.trans (List.map_congr_left ?_)
  intro field hf
  exact Prod.ext rfl (h field hf).symm

end Fields

/-- A name that is no symbol of an alphabet is not among its symbols. -/
theorem Alphabet.not_mem_of_isSymbol {A : Alphabet} {a : String}
    (h : A.isSymbol (.text a) = false) : a ∉ A.symbols := by
  intro ha
  rw [isSymbol, Datum.isIn_text.2 ha] at h
  cases h

namespace Dfa

theorem states_names (M : Dfa) : M.table.names = M.states.toList := M.table_states

theorem nodup_rows (M : Dfa) : M.table.names.Nodup := M.states_names ▸ M.states.nodup

theorem nodup_entries (M : Dfa) {row : String × Fields String (Option String)}
    (h : row ∈ M.table) : row.2.names.Nodup := by
  have hs : row.2.names = M.alphabet.toList := M.row_symbols row h
  exact hs ▸ M.alphabet.symbols.nodup

/-- An entry of the table is what looking up its state and symbol gives. -/
theorem next?_of_mem (M : Dfa) {row : String × Fields String (Option String)} (hrow : row ∈ M.table)
    {entry : String × Option String} (hentry : entry ∈ row.2) :
    M.next? row.1 entry.1 = entry.2 := by
  have h₁ : M.table.get? row.1 = some row.2 := Fields.get?_eq_some_of_mem M.nodup_rows hrow
  have h₂ : row.2.get? entry.1 = some entry.2 :=
    Fields.get?_eq_some_of_mem (M.nodup_entries hrow) hentry
  simp [next?, h₁, h₂]

/-- The look-up of targets determines the table. -/
theorem table_eq_tabulate (M : Dfa) :
    M.table = TransitionTable.tabulate M.states M.alphabet.symbols M.next? := by
  have hrow : ∀ row ∈ M.table,
      M.alphabet.toList.map (fun a => (a, M.next? row.1 a)) = row.2 := by
    intro row h
    rw [← M.row_symbols row h]
    exact (Fields.eq_map_pair fun entry he => M.next?_of_mem h he).symm
  rw [TransitionTable.tabulate, ← M.states_names]
  exact Fields.eq_map_pair hrow

/-- Automata that agree in all look-ups and sets are equal. -/
theorem eq_of_next?_eq {M N : Dfa} (hs : M.states = N.states) (ha : M.alphabet = N.alphabet)
    (hn : ∀ q ∈ M.states, ∀ a ∈ M.alphabet.symbols, M.next? q a = N.next? q a)
    (hi : M.initial = N.initial) (hf : M.finals = N.finals) : M = N := by
  refine Dfa.ext hs ha ?_ hi hf
  rw [M.table_eq_tabulate, N.table_eq_tabulate, ← hs, ← ha]
  refine List.map_congr_left fun q hq => ?_
  rw [List.map_congr_left fun a h => congrArg (Prod.mk a) (hn q hq a h)]

/-- The row of a state. -/
theorem get?_table (M : Dfa) (q : String) : M.table.get? q =
    if q ∈ M.states then some (M.alphabet.toList.map fun a => (a, M.next? q a)) else none := by
  rw [M.table_eq_tabulate]
  exact Fields.get?_map_pair _ _ q

theorem next?_mem_states {M : Dfa} {q a r : String} (h : M.next? q a = some r) : r ∈ M.states := by
  rw [next?, Option.join_eq_some_iff] at h
  obtain ⟨row, hrow, hentry⟩ := Option.bind_eq_some_iff.1 h
  exact M.target_mem _ (Fields.mem_of_get?_eq_some hrow) _ (Fields.mem_of_get?_eq_some hentry) r rfl

/-- Looking up a state and a symbol never fails. -/
theorem next_eq_ok {M : Dfa} {q a : String} (hq : q ∈ M.states) (ha : a ∈ M.alphabet.symbols) :
    M.next (.text q) (.text a) = .ok (M.next? q a) := by
  simp [next, hq, ha]

theorem mem_transitions {M : Dfa} {t : Transition} (h : t ∈ M.transitions) :
    t.source ∈ M.states ∧ t.symbol ∈ M.alphabet.symbols ∧
      M.next? t.source t.symbol = some t.target := by
  obtain ⟨row, hrow, ht⟩ := List.mem_flatMap.1 h
  obtain ⟨entry, hentry, ht⟩ := List.mem_filterMap.1 ht
  obtain ⟨target, htarget, rfl⟩ := Option.map_eq_some_iff.1 ht
  have hq : row.1 ∈ M.states.toList := M.table_states ▸ List.mem_map_of_mem hrow
  have ha : entry.1 ∈ M.alphabet.toList := M.row_symbols row hrow ▸ List.mem_map_of_mem hentry
  exact ⟨hq, ha, (M.next?_of_mem hrow hentry).trans htarget⟩

/-- Every transition that is not dead is listed. -/
theorem mem_transitions_of_next? {M : Dfa} {q a r : String} (h : M.next? q a = some r) :
    ⟨q, a, r⟩ ∈ M.transitions := by
  rw [next?, Option.join_eq_some_iff] at h
  obtain ⟨row, hrow, hentry⟩ := Option.bind_eq_some_iff.1 h
  refine List.mem_flatMap.2 ⟨_, Fields.mem_of_get?_eq_some hrow, ?_⟩
  exact List.mem_filterMap.2 ⟨_, Fields.mem_of_get?_eq_some hentry, rfl⟩

end Dfa
end WordAutomata
