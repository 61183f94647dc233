import Mathlib.Data.List.Induction
import WordAutomata.Language.Cycle
import WordAutomata.Proofs.Dfa.Trail

/-!
# Walks end where their moves lead

A walk changes its position by one for every move, in one direction or in the other. The reader of a
walk remembers the position on the cycle only, which is the displacement modulo the size. So the
numbers of moves in the two directions decide which number the walk may end with.
-/
namespace WordAutomata.Language

inductive Pace where
  | forward
  | back
  | stay
deriving DecidableEq, Repr

/-- What a word of walks is made of. -/
inductive Mark where
  | pace (p : Pace)
  | number (n : Nat)
deriving DecidableEq, Repr

inductive Place where
  | position (i : Nat)
  | arrived
deriving DecidableEq, Repr

namespace Pace

def symbol : Pace → String
  | forward => ">"
  | back => "<"
  | stay => "="

def shift : Pace → Int
  | forward => 1
  | back => -1
  | stay => 0

end Pace

/-! ## Positions on the cycle -/

/-- The position that a pace leads to. -/
def moved (size i : Nat) (p : Pace) : Nat := ((i + p.shift) % size).toNat

/-- How far a walk leads forward, on a line instead of a cycle. -/
def displacement : List Pace → Int
  | [] => 0
  | p :: walk => p.shift + displacement walk

/-- The position that a walk from position 0 leads to. -/
def reached (size : Nat) (walk : List Pace) : Nat := (displacement walk % size).toNat

variable {size i : Nat} {p p' : Pace}

theorem natCast_moved (hsize : 0 < size) (i : Nat) (p : Pace) :
    (moved size i p : Int) = (i + p.shift) % size :=
  Int.toNat_of_nonneg (Int.emod_nonneg _ (by omega))

theorem moved_lt (hsize : 0 < size) (i : Nat) (p : Pace) : moved size i p < size := by
  have hlt : (i + p.shift) % size < size := Int.emod_lt_of_pos _ (by omega)
  have hcast := natCast_moved hsize i p
  omega

theorem moved_stay (hi : i < size) : moved size i .stay = i := by
  have hcast := natCast_moved (Nat.zero_lt_of_lt hi) i .stay
  rw [Pace.shift, Int.add_zero, Int.emod_eq_of_lt (by omega) (by omega)] at hcast
  exact Int.ofNat.inj hcast

/-- The position before a position, without numbers below zero. -/
theorem moved_back (hsize : 0 < size) (i : Nat) : moved size i .back = (i + size - 1) % size := by
  have hshift : ((i + size - 1 : Nat) : Int) = i + Pace.back.shift + size := by
    rw [Pace.shift]
    omega
  have hmod : ((i + size - 1 : Nat) : Int) % size = (i + Pace.back.shift) % size := by
    rw [hshift, Int.add_emod_right]
  rw [moved, ← hmod, ← Int.natCast_emod, Int.toNat_natCast]

/-- A pace undoes another one of opposite direction. -/
theorem moved_moved (hi : i < size) (h : p.shift + p'.shift = 0) :
    moved size (moved size i p) p' = i := by
  have hsize := Nat.zero_lt_of_lt hi
  have hcast : (moved size (moved size i p) p' : Int) = i := by
    rw [natCast_moved hsize (moved size i p), natCast_moved hsize i, Int.emod_add_emod,
      Int.add_assoc, h, Int.add_zero, Int.emod_eq_of_lt (by omega) (by omega)]
  exact Int.ofNat.inj hcast

theorem natCast_reached (hsize : 0 < size) (walk : List Pace) :
    (reached size walk : Int) = displacement walk % size :=
  Int.toNat_of_nonneg (Int.emod_nonneg _ (by omega))

theorem reached_lt (hsize : 0 < size) (walk : List Pace) : reached size walk < size := by
  have hlt : displacement walk % size < size := Int.emod_lt_of_pos _ (by omega)
  have hcast := natCast_reached hsize walk
  omega

theorem reached_nil (size : Nat) : reached size [] = 0 := by
  rw [reached, displacement, Int.zero_emod, Int.toNat_zero]

theorem displacement_append (walk : List Pace) (p : Pace) :
    displacement (walk ++ [p]) = displacement walk + p.shift := by
  induction walk with
  | nil =>
    show p.shift + 0 = 0 + p.shift
    omega
  | cons first walk ih =>
    show first.shift + displacement (walk ++ [p]) = first.shift + displacement walk + p.shift
    omega

/-- One pace more leads on from where the walk has led. -/
theorem reached_append (hsize : 0 < size) (walk : List Pace) (p : Pace) :
    reached size (walk ++ [p]) = moved size (reached size walk) p := by
  rw [moved, natCast_reached hsize, Int.emod_add_emod, reached, displacement_append]

/-- The moves of a walk add up to those forward without those back. -/
theorem displacement_eq_count (walk : List Pace) :
    displacement walk = (walk.count .forward : Int) - walk.count .back := by
  induction walk with
  | nil => rfl
  | cons p walk ih =>
    rw [displacement, ih]
    cases p with
    | forward =>
      rw [List.count_cons_self, List.count_cons_of_ne (by decide), Pace.shift]
      omega
    | back =>
      rw [List.count_cons_self, List.count_cons_of_ne (by decide), Pace.shift]
      omega
    | stay =>
      rw [List.count_cons_of_ne (by decide), List.count_cons_of_ne (by decide), Pace.shift]
      omega

/-! ## Walks -/

/-- How the reader of a walk goes on. -/
inductive Place.Step (size : Nat) : Place → Mark → Place → Prop where
  | pace {i : Nat} {p : Pace} (hi : i < size) :
      Step size (.position i) (.pace p) (.position (moved size i p))
  | number {i : Nat} (hi : i < size) : Step size (.position i) (.number i) .arrived

def Place.Below (size : Nat) : Place → Prop
  | position i => i < size
  | arrived => True

def Mark.Below (size : Nat) : Mark → Prop
  | pace _ => True
  | number n => n < size

/-- A walk and the number of the position that it leads to. -/
def walkMarks (size : Nat) (walk : List Pace) : List Mark :=
  walk.map .pace ++ [.number (reached size walk)]

namespace Place

variable {s t : Place} {b : Mark} {w : List Mark}

theorem Step.below (h : Step size s b t) : s.Below size ∧ b.Below size ∧ t.Below size := by
  cases h with
  | @pace i p hi => exact ⟨hi, trivial, moved_lt (Nat.zero_lt_of_lt hi) i p⟩
  | number hi => exact ⟨hi, hi, trivial⟩

/-- The marks that lead to a place are those of a walk. -/
def Holds (size : Nat) (w : List Mark) : Place → Prop
  | position i => ∃ walk, w = walk.map .pace ∧ reached size walk = i
  | arrived => ∃ walk, w = walkMarks size walk

theorem Holds.step (h : Holds size w s) (hstep : Step size s b t) :
    Holds size (w ++ [b]) t := by
  cases hstep with
  | @pace i p hi =>
    obtain ⟨walk, rfl, rfl⟩ := h
    refine ⟨walk ++ [p], ?_, reached_append (Nat.zero_lt_of_lt hi) walk p⟩
    rw [List.map_append]
    rfl
  | number =>
    obtain ⟨walk, rfl, rfl⟩ := h
    exact ⟨walk, rfl⟩

/-- A walk leads to its position. -/
theorem trail_walk (hsize : 0 < size) (walk : List Pace) :
    Trail (Step size) (.position 0) (walk.map .pace) (.position (reached size walk)) := by
  induction walk using List.reverseRecOn with
  | nil =>
    rw [reached_nil]
    exact .nil
  | append_singleton walk p ih =>
    rw [List.map_append, reached_append hsize]
    exact ih.append (.single (.pace (reached_lt hsize walk)))

theorem trail_arrived_iff (hsize : 0 < size) :
    Trail (Step size) (.position 0) w .arrived ↔ ∃ walk, w = walkMarks size walk := by
  constructor
  · intro h
    have hstart : Holds size [] (.position 0) := ⟨[], rfl, reached_nil size⟩
    exact h.keeps (P := Holds size) (fun _ _ _ _ hholds hstep => hholds.step hstep) [] hstart
  · intro h
    obtain ⟨walk, rfl⟩ := h
    exact (trail_walk hsize walk).append (.single (.number (reached_lt hsize walk)))

end Place

end WordAutomata.Language
