import WordAutomata.Command.Arguments
import WordAutomata.Proofs.Text.Delimited

/-!
# Values behind an equals sign

An option that takes a value is set to what stands behind the first equals sign of its argument,
whatever that is and whatever the other arguments are.
-/
namespace WordAutomata.Command

namespace OptionSpec

/-- The argument that sets an option to a value. -/
def assign (spec : OptionSpec) (value : String) : String := spec.name ++ "=" ++ value

/-- An option is the one of its name, and the name has two dashes and no equals sign. -/
structure IsNamed (specs : List OptionSpec) (spec : OptionSpec) : Prop where
  found : specs.find? (fun other => other.name = spec.name) = some spec
  dashes : ∃ letters, spec.name.toList = '-' :: '-' :: letters
  no_equals_sign : '=' ∉ spec.name.toList

end OptionSpec

variable {specs : List OptionSpec} {spec : OptionSpec}

theorem toList_assign (spec : OptionSpec) (value : String) :
    (spec.assign value).toList = spec.name.toList ++ ['='] ++ value.toList := by
  rw [OptionSpec.assign, String.toList_append, String.toList_append]
  rfl

theorem assign_ne_doubleDash (spec : OptionSpec) (value : String) : spec.assign value ≠ "--" := by
  intro h
  have hmem : '=' ∈ (spec.assign value).toList := by simp [toList_assign]
  rw [h] at hmem
  exact absurd hmem (by decide)

theorem splitAttached_assign (h : '=' ∉ spec.name.toList) (value : String) :
    splitAttached (spec.assign value) = (spec.name, some value) := by
  have hcut : Text.cut? ['='] (spec.assign value).toList = some (spec.name.toList, value.toList) :=
    (Text.cut?_eq_some_iff (List.cons_ne_nil _ _)).2
      ⟨toList_assign spec value, Text.firstAt_char_iff.2 h⟩
  rw [splitAttached, hcut]
  simp only [String.ofList_toList]

theorem classify_assign (h : spec.IsNamed specs) (value : String) :
    classify specs (spec.assign value) = .option spec (some value) := by
  obtain ⟨letters, hletters⟩ := h.dashes
  have hlong : classify specs (spec.assign value) = classifyLong specs (spec.assign value) := by
    rw [classify, toList_assign, hletters]
    rfl
  rw [hlong, classifyLong, splitAttached_assign h.no_equals_sign]
  simp only [h.found]

/-- An argument that sets an option is not ambiguous. -/
theorem isAmbiguous_assign (h : spec.IsNamed specs) (value : String) (rest : List String) :
    isAmbiguous specs (spec.assign value :: rest) = isAmbiguous specs rest := by
  have hne := assign_ne_doubleDash spec value
  simp [isAmbiguous, hne, classify_assign h]

/-- An option that takes a value is set to the one behind the equals sign. -/
theorem requests_assign (h : spec.IsNamed specs) (htakes : spec.takesValue = true) (value : String)
    (rest : List String) : requests specs none (spec.assign value :: rest) =
      .set spec.name (.ofAttached value) :: requests specs none rest := by
  rw [requests]
  simp only [if_neg (assign_ne_doubleDash spec value), classify_assign h, htakes, if_true]

end WordAutomata.Command
