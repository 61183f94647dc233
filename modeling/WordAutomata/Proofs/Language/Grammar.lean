import WordAutomata.Proofs.Language.Named
import WordAutomata.Proofs.Text.Digit

/-!
# The grammar of language names

A language is named by one of eight fixed names, or as a bracket language by two numbers. The reader
of names takes digits as long as there are any. What stands behind a number is never a digit, so
nothing is lost by that, and the reader accepts exactly the names of the grammar. A number has many
spellings, but they all name one automaton.
-/
namespace WordAutomata.Language

def fixedNames : List String :=
  ["all-strings", "empty-set", "repeat-01", "even-pairs", "modular-arithmetic-simple", "parity",
    "cycle-navigation", "first"]

theorem names_fixed : fixed.names = fixedNames := rfl

theorem get?_fixed_eq_none_iff {name : String} :
    Fields.get? fixed name = none ↔ name ∉ fixedNames := Fields.get?_eq_none_iff

/-- The name of a bracket language: `dyck-`, the number of kinds, `-`, the depth, and perhaps one
line feed behind it. -/
def BracketName (name : List Char) (kinds depth : Nat) : Prop :=
  ∃ front back ending, name = "dyck-".toList ++ (front ++ '-' :: (back ++ ending)) ∧
    Text.Spells front kinds ∧ Text.Spells back depth ∧ (ending = [] ∨ ending = ['\n'])

variable {text rest : List Char} {n kinds depth : Nat}

theorem without?_eq_some_iff {front : List Char} :
    without? front text = some rest ↔ text = front ++ rest := by
  rw [without?]
  split
  · rename_i hfront
    obtain ⟨back, rfl⟩ := List.isPrefixOf_iff_prefix.1 hfront
    rw [List.drop_left, Option.some.injEq, List.append_cancel_left_eq]
  · rename_i hfront
    constructor
    · intro h
      cases h
    · intro h
      subst h
      exact absurd (List.isPrefixOf_iff_prefix.2 (List.prefix_append front rest)) hfront

/-- A number that is read stands at the front. -/
theorem exists_of_numberAt? (h : numberAt? text = some (n, rest)) :
    ∃ front, Text.Spells front n ∧ text = front ++ rest := by
  obtain ⟨number, hnumber, he⟩ := Option.map_eq_some_iff.1 h
  cases he
  exact ⟨_, Text.digitsValue?_eq_some_iff.1 hnumber, List.takeWhile_append_dropWhile.symm⟩

/-- A number is read if no digit stands behind it. -/
theorem numberAt?_append {front : List Char} (h : Text.Spells front n)
    (hrest : ∀ c ∈ rest.head?, Text.digitValue? c = none) :
    numberAt? (front ++ rest) = some (n, rest) := by
  have hfront := h.isSome_digitValue?
  have htake : rest.takeWhile (fun c => (Text.digitValue? c).isSome) = [] := by
    cases rest with
    | nil => rfl
    | cons c rest => exact List.takeWhile_cons_of_neg (by simp [hrest c rfl])
  have hdrop : rest.dropWhile (fun c => (Text.digitValue? c).isSome) = rest := by
    cases rest with
    | nil => rfl
    | cons c rest => exact List.dropWhile_cons_of_neg (by simp [hrest c rfl])
  rw [numberAt?, List.takeWhile_append_of_pos hfront, htake, List.append_nil,
    Text.digitsValue?_eq_some_iff.2 h, List.dropWhile_append_of_pos hfront, hdrop]
  rfl

/-- The reader of names accepts exactly the names of bracket languages. -/
theorem bracketParameters?_eq_some_iff :
    bracketParameters? text = some (kinds, depth) ↔ BracketName text kinds depth := by
  constructor
  · intro h
    simp only [bracketParameters?, bind, Option.bind_eq_some_iff, without?_eq_some_iff,
      Prod.exists] at h
    obtain ⟨_, rfl, k, _, hkinds, _, rfl, m, ending, hdepth, hending⟩ := h
    obtain ⟨front, hfront, rfl⟩ := exists_of_numberAt? hkinds
    obtain ⟨back, hback, rfl⟩ := exists_of_numberAt? hdepth
    split at hending
    · rename_i hend
      cases hending
      exact ⟨front, back, ending, rfl, hfront, hback, hend⟩
    · cases hending
  · intro hname
    obtain ⟨front, back, ending, rfl, hfront, hback, hending⟩ := hname
    have hdash : ∀ c ∈ ('-' :: (back ++ ending)).head?, Text.digitValue? c = none := by
      intro c hc
      cases hc
      decide
    have hend : ∀ c ∈ ending.head?, Text.digitValue? c = none := by
      rcases hending with rfl | rfl
      · intro c hc
        cases hc
      · intro c hc
        cases hc
        decide
    have hname : without? "dyck-".toList ("dyck-".toList ++ (front ++ '-' :: (back ++ ending))) =
        some (front ++ '-' :: (back ++ ending)) := without?_eq_some_iff.2 rfl
    have hmiddle : without? ['-'] ('-' :: (back ++ ending)) = some (back ++ ending) :=
      without?_eq_some_iff.2 rfl
    simp only [bracketParameters?, bind, hname, Option.bind_some, numberAt?_append hfront hdash,
      hmiddle, numberAt?_append hback hend, if_pos hending]

theorem BracketName.unique {k m : Nat} (h : BracketName text kinds depth)
    (h' : BracketName text k m) : k = kinds ∧ m = depth := by
  have hsame := (bracketParameters?_eq_some_iff.2 h').symm.trans (bracketParameters?_eq_some_iff.2 h)
  cases hsame
  exact ⟨rfl, rfl⟩

theorem not_bracketName_of_mem_fixed {name : String} (h : name ∈ fixedNames) :
    ¬ BracketName name.toList kinds depth := by
  have hnone : ∀ name ∈ fixedNames, bracketParameters? name.toList = none := by decide
  intro hname
  have hsome := bracketParameters?_eq_some_iff.2 hname
  rw [hnone name h] at hsome
  cases hsome

/-- A bracket language is found under its name. -/
theorem named_of_bracketName {name : String} (h : BracketName name.toList kinds depth) :
    named name = bracketAutomaton kinds depth := by
  have hfixed : Fields.get? fixed name = none :=
    get?_fixed_eq_none_iff.2 fun hmem => not_bracketName_of_mem_fixed hmem h
  simp only [named, hfixed, bracketParameters?_eq_some_iff.2 h]

theorem named_of_unknown {name : String} (hfixed : name ∉ fixedNames)
    (hname : ∀ kinds depth, ¬ BracketName name.toList kinds depth) :
    named name = .error (.unknownName name) := by
  have hparameters : bracketParameters? name.toList = none := by
    rw [Option.eq_none_iff_forall_ne_some]
    intro parameters h
    obtain ⟨kinds, depth⟩ := parameters
    exact hname kinds depth (bracketParameters?_eq_some_iff.1 h)
  simp only [named, get?_fixed_eq_none_iff.2 hfixed, hparameters]

theorem bracketAutomaton_zero (depth : Nat) :
    bracketAutomaton (0 : Nat) depth = .error (.badBrackets 0 depth) := if_pos (.inl (by decide))

/-- The names that are resolved are exactly those of the grammar: the eight fixed ones, and those of
bracket languages with at least one kind. The name of a bracket language has one number of kinds and
one depth, its automaton is that of the two numbers however they are spelled, and no kinds at all
are refused. A name outside the grammar is refused with the name. -/
theorem named_exactly_by_grammar :
    (∀ name, (∃ M, named name = .ok M) ↔
      name ∈ fixedNames ∨ ∃ kinds depth, BracketName name.toList kinds depth ∧ 1 ≤ kinds) ∧
    (∀ name kinds depth, BracketName name.toList kinds depth →
      named name = bracketAutomaton kinds depth ∧
      (∀ k m, BracketName name.toList k m → k = kinds ∧ m = depth) ∧
      (∀ other, BracketName other.toList kinds depth → named other = named name) ∧
      (1 ≤ kinds → ∃ M, named name = .ok M ∧ bracketAutomaton kinds depth = .ok M)) ∧
    (∀ name depth, BracketName name.toList 0 depth → ∃ e, named name = .error e ∧
      e = .badBrackets 0 depth ∧
      e.message = "invalid Dyck parameters: k=0, m=" ++ Text.decimal depth) ∧
    (∀ name, name ∉ fixedNames → (∀ kinds depth, ¬ BracketName name.toList kinds depth) →
      ∃ e, named name = .error e ∧ e = .unknownName name ∧
        e.message = "invalid language name: " ++ name) := by
  refine ⟨?_, ?_, ?_, ?_⟩
  · intro name
    rw [exists_named_iff, Resolves, names_fixed]
    simp only [bracketParameters?_eq_some_iff]
  · intro name kinds depth h
    refine ⟨named_of_bracketName h, fun k m => h.unique, ?_, ?_⟩
    · intro other hother
      rw [named_of_bracketName hother, named_of_bracketName h]
    · intro hkinds
      obtain ⟨M, hM⟩ := exists_bracketAutomaton hkinds depth
      exact ⟨M, (named_of_bracketName h).trans hM, hM⟩
  · intro name depth h
    exact ⟨_, (named_of_bracketName h).trans (bracketAutomaton_zero depth), rfl, rfl⟩
  · intro name hfixed hname
    exact ⟨_, named_of_unknown hfixed hname, rfl, rfl⟩

/-- Two spellings of the same numbers, one with an Arabic-Indic zero, another zero and a line feed;
no kinds; and one line feed too many. -/
theorem named_by_spellings :
    BracketName "dyck-\u06602-03\n".toList 2 3 ∧ BracketName "dyck-2-3".toList 2 3 ∧
    (∃ M, named "dyck-\u06602-03\n" = .ok M ∧ named "dyck-2-3" = .ok M ∧
      bracketAutomaton (2 : Nat) (3 : Nat) = .ok M) ∧
    (∃ e, named "dyck-00-1" = .error e ∧ e.message = "invalid Dyck parameters: k=0, m=1") ∧
    ∃ e, named "dyck-2-3\n\n" = .error e ∧
      e.message = "invalid language name: " ++ "dyck-2-3\n\n" := by
  obtain ⟨-, hbrackets, hzero, hunknown⟩ := named_exactly_by_grammar
  have hmixed : BracketName "dyck-\u06602-03\n".toList 2 3 :=
    bracketParameters?_eq_some_iff.1 (by decide)
  have hplain : BracketName "dyck-2-3".toList 2 3 := bracketParameters?_eq_some_iff.1 (by decide)
  have hnone : BracketName "dyck-00-1".toList 0 1 := bracketParameters?_eq_some_iff.1 (by decide)
  have hlines : ∀ kinds depth, ¬ BracketName "dyck-2-3\n\n".toList kinds depth := by
    intro kinds depth h
    have hsome := bracketParameters?_eq_some_iff.2 h
    rw [show bracketParameters? "dyck-2-3\n\n".toList = none from by decide] at hsome
    cases hsome
  obtain ⟨-, -, hsame, hbuilt⟩ := hbrackets _ _ _ hmixed
  obtain ⟨M, hM, hautomaton⟩ := hbuilt (by decide)
  obtain ⟨e, he, -, hmessage⟩ := hzero _ _ hnone
  obtain ⟨e', he', -, hmessage'⟩ := hunknown "dyck-2-3\n\n" (by decide) hlines
  exact ⟨hmixed, hplain, ⟨M, hM, (hsame _ hplain).trans hM, hautomaton⟩, ⟨e, he, hmessage⟩,
    ⟨e', he', hmessage'⟩⟩

end WordAutomata.Language
