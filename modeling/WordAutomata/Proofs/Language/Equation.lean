import Mathlib.Data.Int.ModEq
import WordAutomata.Language.Modular
import WordAutomata.Proofs.Dfa.Trail

/-!
# Equations read from left to right

An expression nests to the left, as it is evaluated, and its value is an integer of any size. The
reader of an equation remembers the value so far modulo a number only. Since the operators respect
congruence, that is the remainder of the value: reducing after every operator and reducing once at
the end agree, also where a difference is negative. So the equations that the reader takes to the
end are the correct ones.
-/
namespace WordAutomata.Language

inductive Token where
  | number (n : Nat)
  | operator (op : Operator)
  | equals
deriving DecidableEq, Repr

/-- What the reader of an equation remembers. -/
inductive Reading where
  | start
  | value (i : Nat)
  | pending (i : Nat) (op : Operator)
  | check (i : Nat)
  | correct
deriving DecidableEq, Repr

/-- How the reader goes on, with all numbers below the modulus. -/
inductive Reading.Step (modulus : Nat) : Reading → Token → Reading → Prop where
  | first {i : Nat} (hi : i < modulus) : Step modulus .start (.number i) (.value i)
  | operator {i : Nat} {op : Operator} (hi : i < modulus) :
      Step modulus (.value i) (.operator op) (.pending i op)
  | operand {i : Nat} {op : Operator} {y : Nat} (hi : i < modulus) (hy : y < modulus) :
      Step modulus (.pending i op) (.number y) (.value (applyModulo modulus op i y))
  | equals {i : Nat} (hi : i < modulus) : Step modulus (.value i) .equals (.check i)
  | result {i : Nat} (hi : i < modulus) : Step modulus (.check i) (.number i) .correct

/-- An expression: a number, or an operator between an expression and a number. -/
inductive Expression where
  | number (n : Nat)
  | apply (e : Expression) (op : Operator) (n : Nat)
deriving DecidableEq, Repr

namespace Expression

def tokens : Expression → List Token
  | number n => [.number n]
  | apply e op n => e.tokens ++ [.operator op, .number n]

def equation (e : Expression) (r : Nat) : List Token := e.tokens ++ [.equals, .number r]

/-- The value over the integers, with the sum, the difference and the product as the signs say. -/
def value : Expression → Int
  | number n => n
  | apply e .add n => e.value + n
  | apply e .sub n => e.value - n
  | apply e .mul n => e.value * n

/-- All numbers of the expression are below the modulus. -/
def Within (modulus : Nat) : Expression → Prop
  | number n => n < modulus
  | apply e _ n => e.Within modulus ∧ n < modulus

instance decidableWithin (modulus : Nat) : DecidablePred (Within modulus)
  | number n => inferInstanceAs (Decidable (n < modulus))
  | apply e _ n =>
    have := decidableWithin modulus e
    inferInstanceAs (Decidable (e.Within modulus ∧ n < modulus))

def remainder (modulus : Nat) (e : Expression) : Nat := (e.value % modulus).toNat

/-- The operators of the automaton have these values. -/
theorem value_apply (e : Expression) (op : Operator) (n : Nat) :
    (e.apply op n).value = op.apply e.value n := by
  cases op <;> rfl

variable {modulus : Nat} {e : Expression}

theorem Within.modulus_pos (h : e.Within modulus) : 0 < modulus := by
  cases e with
  | number n => exact Nat.zero_lt_of_lt h
  | apply e op n => exact Nat.zero_lt_of_lt h.2

theorem natCast_remainder (hpos : 0 < modulus) (e : Expression) :
    (e.remainder modulus : Int) = e.value % modulus :=
  Int.toNat_of_nonneg (Int.emod_nonneg _ (by omega))

theorem remainder_lt (hpos : 0 < modulus) (e : Expression) : e.remainder modulus < modulus := by
  have hlt : e.value % modulus < modulus := Int.emod_lt_of_pos _ (by omega)
  have hcast := natCast_remainder hpos e
  omega

theorem remainder_number {n : Nat} (h : n < modulus) : (number n).remainder modulus = n := by
  have hcast := natCast_remainder (Nat.zero_lt_of_lt h) (number n)
  rw [value, Int.emod_eq_of_lt (by omega) (by omega)] at hcast
  exact Int.ofNat.inj hcast

end Expression

/-- Congruent numbers have congruent results. -/
theorem Operator.apply_modEq {n x x' : Int} (op : Operator) (h : x ≡ x' [ZMOD n]) (y : Int) :
    op.apply x y ≡ op.apply x' y [ZMOD n] := by
  cases op with
  | add => exact h.add_right y
  | sub => exact h.sub_right y
  | mul => exact h.mul_right y

variable {modulus : Nat} {e : Expression} {s t : Reading} {b : Token} {w : List Token}

/-- Reducing before an operator does not change the remainder of its result. -/
theorem applyModulo_remainder (hpos : 0 < modulus) (e : Expression) (op : Operator) (y : Nat) :
    applyModulo modulus op (e.remainder modulus) y = (e.apply op y).remainder modulus := by
  have hcongr : (e.remainder modulus : Int) ≡ e.value [ZMOD modulus] := by
    rw [Expression.natCast_remainder hpos]
    exact Int.mod_modEq _ _
  have hresult := op.apply_modEq hcongr y
  rw [applyModulo, hresult, Expression.remainder, Expression.value_apply]

/-! ## Bounds -/

/-- What is remembered is below the modulus. -/
def Reading.Below (modulus : Nat) : Reading → Prop
  | value i => i < modulus
  | pending i _ => i < modulus
  | check i => i < modulus
  | _ => True

def Token.Below (modulus : Nat) : Token → Prop
  | number n => n < modulus
  | _ => True

theorem applyModulo_lt (hpos : 0 < modulus) (op : Operator) (x y : Nat) :
    applyModulo modulus op x y < modulus := by
  have hlt : op.apply x y % modulus < modulus := Int.emod_lt_of_pos _ (by omega)
  rw [applyModulo]
  omega

theorem Reading.Step.below (h : Reading.Step modulus s b t) :
    s.Below modulus ∧ b.Below modulus ∧ t.Below modulus := by
  cases h with
  | first hi => exact ⟨trivial, hi, hi⟩
  | operator hi => exact ⟨hi, trivial, hi⟩
  | operand hi hy => exact ⟨hi, hy, applyModulo_lt (Nat.zero_lt_of_lt hi) _ _ _⟩
  | equals hi => exact ⟨hi, trivial, hi⟩
  | result hi => exact ⟨hi, hi, trivial⟩

/-! ## Equations -/

namespace Reading

/-- The tokens behind what is remembered are the beginning of an equation. -/
def Holds (modulus : Nat) (w : List Token) : Reading → Prop
  | start => w = []
  | value i => ∃ e : Expression, e.Within modulus ∧ e.remainder modulus = i ∧ w = e.tokens
  | pending i op => ∃ e : Expression, e.Within modulus ∧ e.remainder modulus = i ∧
      w = e.tokens ++ [.operator op]
  | check i => ∃ e : Expression, e.Within modulus ∧ e.remainder modulus = i ∧
      w = e.tokens ++ [.equals]
  | correct => ∃ e : Expression, e.Within modulus ∧
      w = e.equation (e.remainder modulus)

theorem Holds.step (h : Holds modulus w s) (hstep : Step modulus s b t) :
    Holds modulus (w ++ [b]) t := by
  cases hstep with
  | @first i hi =>
    have hw : w = [] := h
    rw [hw]
    exact ⟨.number i, hi, Expression.remainder_number hi, rfl⟩
  | operator =>
    obtain ⟨e, he, hi, rfl⟩ := h
    exact ⟨e, he, hi, rfl⟩
  | @operand i op y hi hy =>
    obtain ⟨e, he, rfl, rfl⟩ := h
    refine ⟨e.apply op y, ⟨he, hy⟩, (applyModulo_remainder he.modulus_pos e op y).symm, ?_⟩
    rw [List.append_assoc]
    rfl
  | equals =>
    obtain ⟨e, he, hi, rfl⟩ := h
    exact ⟨e, he, hi, rfl⟩
  | result =>
    obtain ⟨e, he, rfl, rfl⟩ := h
    refine ⟨e, he, ?_⟩
    rw [List.append_assoc, Expression.equation]
    rfl

theorem Holds.of_trail (h : Trail (Step modulus) .start w s) : Holds modulus w s :=
  h.keeps (P := Holds modulus) (fun _ _ _ _ hholds hstep => hholds.step hstep) [] rfl

/-- An expression is read to the remainder of its value. -/
theorem trail_tokens (h : e.Within modulus) :
    Trail (Step modulus) .start e.tokens (.value (e.remainder modulus)) := by
  induction e with
  | number n =>
    rw [Expression.remainder_number h]
    exact .single (.first h)
  | apply e op y ih =>
    obtain ⟨he, hy⟩ := h
    have hlt := Expression.remainder_lt he.modulus_pos e
    rw [← applyModulo_remainder he.modulus_pos]
    exact (ih he).append (.cons (.operator hlt) (.single (.operand hlt hy)))

theorem trail_correct_iff : Trail (Step modulus) .start w .correct ↔
    ∃ e : Expression, e.Within modulus ∧
      w = e.equation (e.remainder modulus) := by
  constructor
  · exact Holds.of_trail
  · rintro ⟨e, he, rfl⟩
    have hlt := Expression.remainder_lt he.modulus_pos e
    exact (trail_tokens he).append (.cons (.equals hlt) (.single (.result hlt)))

end Reading
end WordAutomata.Language
