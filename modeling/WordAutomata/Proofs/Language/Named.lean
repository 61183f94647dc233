import WordAutomata.Language.Named
import WordAutomata.Proofs.Language.Bracket
import WordAutomata.Proofs.Language.Modular

/-!
# Which names name a language

Every language with a fixed name has an automaton, and so has every bracket language with at least
one kind of brackets. So a name fails to be resolved for two reasons only: it has none of the known
forms, or it asks for brackets of no kind. A state diagram that is unfit and a cycle without
positions do not occur.
-/
namespace WordAutomata.Language

theorem exists_bracketAutomaton {kinds : Nat} (hkinds : 1 ≤ kinds) (depth : Nat) :
    ∃ M, bracketAutomaton kinds depth = .ok M := by
  obtain ⟨M, hbuild, -⟩ := (fit_bracketPlan hkinds depth).exists_realizes bracketSpelling
  rw [draw_bracketPlan] at hbuild
  refine ⟨M, ?_⟩
  rw [bracketAutomaton, if_neg (by omega), Language.build]
  show (brackets kinds depth).build.mapError LanguageError.diagram = _
  rw [hbuild]
  rfl

/-- Every language with a fixed name has an automaton. -/
theorem exists_fixed : ∀ entry ∈ fixed, ∃ M, entry.2 = .ok M := by
  obtain ⟨modular, hmodular, -⟩ := exists_modularAutomaton defaultSize
  simp only [fixed, List.forall_mem_cons]
  refine ⟨⟨_, rfl⟩, ⟨_, rfl⟩, ⟨_, rfl⟩, ⟨_, rfl⟩, ⟨modular, hmodular⟩, ⟨_, rfl⟩, ⟨_, rfl⟩, ⟨_, rfl⟩, ?_⟩
  exact List.forall_mem_nil _

/-- A name that is fixed, or that of brackets of at least one kind. -/
def Resolves (name : String) : Prop :=
  name ∈ fixed.names ∨
    ∃ kinds depth, bracketParameters? name.toList = some (kinds, depth) ∧ 1 ≤ kinds

variable {name : String}

/-- A name is resolved by the fixed names first. -/
theorem named_of_get? {automaton : Except LanguageError Dfa}
    (h : Fields.get? fixed name = some automaton) : named name = automaton := by
  rw [named, h]

/-- The names that are resolved are the fixed ones and those of brackets of at least one kind. -/
theorem exists_named_iff : (∃ M, named name = .ok M) ↔ Resolves name := by
  rw [Resolves]
  cases hfixed : Fields.get? fixed name with
  | some automaton =>
    have hmem := Fields.mem_of_get?_eq_some hfixed
    obtain ⟨M, hM⟩ := exists_fixed _ hmem
    have hname : name ∈ fixed.names := List.mem_map_of_mem hmem
    rw [named_of_get? hfixed]
    exact ⟨fun _ => .inl hname, fun _ => ⟨M, hM⟩⟩
  | none =>
    have hname : name ∉ fixed.names := by
      intro hmem
      obtain ⟨automaton, hsome⟩ := Fields.exists_get?_of_mem_names hmem
      rw [hfixed] at hsome
      cases hsome
    rw [or_iff_right hname, named, hfixed]
    cases hparameters : bracketParameters? name.toList with
    | none => simp
    | some parameters =>
      obtain ⟨kinds, depth⟩ := parameters
      by_cases hkinds : 1 ≤ kinds
      · exact ⟨fun _ => ⟨kinds, depth, rfl, hkinds⟩, fun _ => exists_bracketAutomaton hkinds depth⟩
      · have hbad : (kinds : Int) < 1 ∨ (depth : Int) < 0 := by omega
        have hfails : bracketAutomaton kinds depth = .error (.badBrackets kinds depth) := by
          rw [bracketAutomaton, if_pos hbad]
        simp [hfails, hkinds]

/-- A name that is not resolved has no known form, or it asks for brackets of no kind. -/
theorem eq_of_named_eq_error {e : LanguageError} (h : named name = .error e) :
    e = .unknownName name ∨ ∃ kinds depth : Int, e = .badBrackets kinds depth := by
  rw [named] at h
  split at h
  · rename_i automaton hfixed
    obtain ⟨M, rfl⟩ := exists_fixed _ (Fields.mem_of_get?_eq_some hfixed)
    cases h
  · split at h
    · rename_i kinds depth hparameters
      by_cases hkinds : 1 ≤ kinds
      · obtain ⟨M, hM⟩ := exists_bracketAutomaton hkinds depth
        rw [hM] at h
        cases h
      · rw [bracketAutomaton, if_pos (by omega)] at h
        cases h
        exact .inr ⟨_, _, rfl⟩
    · cases h
      exact .inl rfl

end WordAutomata.Language
