import WordAutomata.Language.Bracket
import WordAutomata.Proofs.Except
import WordAutomata.Proofs.Text.Decimal

/-!
# Stacks are read back from their names

The name of a stack holds the kinds of its brackets in decimal, of any length and with a sign where
one is needed. No spelling of a number contains a blank, so cutting the name at the blanks gives the
brackets again, and no bracket is written like the bottom. So every stack has a name of its own.
-/
namespace WordAutomata.Language

/-- The kind of an opening bracket that is written as a text. -/
def openKind? : List Char → Option Int
  | '(' :: digits =>
    match Json.number? digits with
    | some (.int kind, []) => some kind
    | _ => none
  | _ => none

/-- The stack that a name spells. -/
def stackNamed? (name : String) : Option (List Int) :=
  if name = stackState [] then some [] else (name.toList.splitOn ' ').mapM openKind?

theorem toList_openBracket (a : Int) :
    (openBracket a).toList = '(' :: (Text.decimal a).toList := by
  rw [openBracket, String.toList_append]
  rfl

theorem openKind?_openBracket (a : Int) : openKind? (openBracket a).toList = some a := by
  have hnumber := Json.number?_intDigits a Json.ends_nil
  rw [List.append_nil] at hnumber
  rw [toList_openBracket, Text.toList_decimal, openKind?, hnumber]

/-- Cutting the name of a stack at the blanks gives the brackets that are open. -/
theorem splitOn_stackState (a : Int) (stack : List Int) :
    (stackState (a :: stack)).toList.splitOn ' ' =
      (a :: stack).map fun b => (openBracket b).toList := by
  rw [stackState, String.toList_intercalate, List.map_map]
  · apply List.splitOn_intercalate
    · intro piece hpiece
      obtain ⟨b, -, rfl⟩ := List.mem_map.1 hpiece
      have hblank := Text.not_mem_decimal (c := ' ') (by decide) (by decide) b
      simp [toList_openBracket, hblank]
    · simp
  · simp

/-- The bottom is not written like a bracket. -/
theorem stackState_cons_ne_nil (a : Int) (stack : List Int) :
    stackState (a :: stack) ≠ stackState [] := by
  intro h
  have hbottom : (stackState []).toList.splitOn ' ' =
      [['<', 'b', 'o', 't', 't', 'o', 'm', '>']] := by decide
  have hpieces := splitOn_stackState a stack
  rw [h, hbottom, List.map_cons, toList_openBracket] at hpieces
  have hfirst := (List.cons.inj hpieces).1
  exact absurd (List.cons.inj hfirst).1 (by decide)

theorem stackNamed?_stackState (stack : List Int) :
    stackNamed? (stackState stack) = some stack := by
  cases stack with
  | nil => rw [stackNamed?, if_pos rfl]
  | cons a stack =>
    have hkinds : (a :: stack).mapM (fun b => openKind? (openBracket b).toList) =
        some ((a :: stack).map id) := mapM_eq_some_map fun b _ => openKind?_openBracket b
    rw [List.map_id] at hkinds
    rw [stackNamed?, if_neg (stackState_cons_ne_nil a stack), splitOn_stackState, List.mapM_map]
    exact hkinds

/-- Different stacks have different names. -/
theorem stackState_injective : Function.Injective stackState := by
  intro s t h
  have hread := congrArg stackNamed? h
  rw [stackNamed?_stackState, stackNamed?_stackState] at hread
  exact Option.some.inj hread

theorem kindState_injective : Function.Injective kindState := by
  intro s t h
  exact (List.map_inj_right fun _ _ => Int.ofNat.inj).1 (stackState_injective h)

theorem kindState_ne_empty (stack : List Nat) : kindState stack ≠ "" := by
  intro h
  have hempty : stackNamed? "" = none := by decide
  have hread := stackNamed?_stackState (stack.map fun a : Nat => (a : Int))
  rw [show stackState (stack.map fun a : Nat => (a : Int)) = "" from h, hempty] at hread
  cases hread

/-- A stack of any height, over kinds of any size and sign, is read back from its name. So no two
stacks share a name, and only the empty one is named as the bottom. -/
theorem names_tell_stacks_apart :
    (∀ stack, stackNamed? (stackState stack) = some stack) ∧
    (∀ s t, stackState s = stackState t ↔ s = t) ∧
    ∀ stack, stackState stack = "<bottom>" ↔ stack = [] := by
  refine ⟨stackNamed?_stackState, fun s t => stackState_injective.eq_iff, fun stack => ?_⟩
  exact stackState_injective.eq_iff (b := [])

example : stackNamed? "(12 (-3 (0" = some [12, -3, 0] := by decide

end WordAutomata.Language
