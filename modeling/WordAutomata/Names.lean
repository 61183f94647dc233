/-!
# Sets of names

A set of names is kept as the strictly increasing list of its members, ordered by code point. Two
sets with the same members are therefore equal, whatever order the members were given in.
-/
namespace WordAutomata

structure Names where
  /-- The members in increasing order. -/
  toList : List String
  increasing : toList.Pairwise (· < ·)
deriving DecidableEq

namespace Names

@[ext] theorem ext {s t : Names} (h : s.toList = t.toList) : s = t := by
  cases s; cases t; simp_all

instance : Membership String Names := ⟨fun s a => a ∈ s.toList⟩

theorem mem_def {a : String} {s : Names} : a ∈ s ↔ a ∈ s.toList := Iff.rfl

instance (a : String) (s : Names) : Decidable (a ∈ s) :=
  inferInstanceAs (Decidable (a ∈ s.toList))

/-- Sets with the same members are equal, because both lists are strictly increasing. -/
theorem eq_of_mem_iff {s t : Names} (h : ∀ a, a ∈ s ↔ a ∈ t) : s = t := by
  have hs := s.increasing.imp fun {a b} (hab : a < b) (he : a = b) =>
    String.lt_irrefl b (he ▸ hab)
  have ht := t.increasing.imp fun {a b} (hab : a < b) (he : a = b) =>
    String.lt_irrefl b (he ▸ hab)
  have hperm : s.toList.Perm t.toList := (List.perm_ext_iff_of_nodup hs ht).2 h
  refine Names.ext (hperm.eq_of_pairwise ?_ s.increasing t.increasing)
  intro a b _ _ hab hba
  exact absurd hba (String.lt_asymm hab)

def empty : Names := ⟨[], .nil⟩

instance : EmptyCollection Names := ⟨empty⟩

instance : Inhabited Names := ⟨empty⟩

/-- A name put at its place in an increasing list that may hold it already. -/
def place (a : String) : List String → List String
  | [] => [a]
  | b :: bs => if a < b then a :: b :: bs else if a = b then b :: bs else b :: place a bs

@[simp] theorem mem_place {a x : String} {s : List String} : x ∈ place a s ↔ x = a ∨ x ∈ s := by
  induction s with
  | nil => simp [place]
  | cons b bs ih =>
    unfold place
    split
    · simp
    · split
      · simp_all
      · simp only [List.mem_cons, ih]
        exact or_left_comm

theorem pairwise_place (a : String) {s : List String} (h : s.Pairwise (· < ·)) :
    (place a s).Pairwise (· < ·) := by
  induction s with
  | nil => simp [place]
  | cons b bs ih =>
    have hb := List.pairwise_cons.1 h
    unfold place
    split
    · rename_i hab
      refine List.pairwise_cons.2 ⟨?_, h⟩
      intro x hx
      rcases List.mem_cons.1 hx with rfl | hx
      · exact hab
      · exact String.lt_trans hab (hb.1 x hx)
    · split
      · exact h
      · rename_i hab hne
        refine List.pairwise_cons.2 ⟨?_, ih hb.2⟩
        intro x hx
        rcases mem_place.1 hx with rfl | hx
        · rcases Std.lt_trichotomy x b with h₁ | h₁ | h₁
          · exact absurd h₁ hab
          · exact absurd h₁ hne
          · exact h₁
        · exact hb.1 x hx

def insert (a : String) (s : Names) : Names := ⟨place a s.toList, pairwise_place a s.increasing⟩

@[simp] theorem mem_insert {a x : String} {s : Names} : x ∈ s.insert a ↔ x = a ∨ x ∈ s :=
  mem_place

def ofList : List String → Names
  | [] => empty
  | a :: as => (ofList as).insert a

@[simp] theorem mem_ofList {x : String} {as : List String} : x ∈ ofList as ↔ x ∈ as := by
  induction as with
  | nil => simp [ofList, empty, mem_def]
  | cons a as ih => simp [ofList, ih]

/-- The order and repetition of the given names make no difference. -/
theorem ofList_eq_ofList_iff {as bs : List String} :
    ofList as = ofList bs ↔ ∀ x, x ∈ as ↔ x ∈ bs := by
  constructor
  · intro h x
    rw [← mem_ofList, h, mem_ofList]
  · intro h
    exact eq_of_mem_iff fun x => by simpa using h x

def filter (p : String → Bool) (s : Names) : Names :=
  ⟨s.toList.filter p, s.increasing.filter p⟩

@[simp] theorem mem_filter {p : String → Bool} {x : String} {s : Names} :
    x ∈ s.filter p ↔ x ∈ s ∧ p x = true := by simp [filter, mem_def]

def diff (s t : Names) : Names := s.filter fun a => !decide (a ∈ t)

@[simp] theorem mem_diff {x : String} {s t : Names} : x ∈ s.diff t ↔ x ∈ s ∧ x ∉ t := by
  simp [diff]

def size (s : Names) : Nat := s.toList.length

/-- The place of a member in increasing order. -/
def index? (s : Names) (a : String) : Option Nat := s.toList.idxOf? a

end Names
end WordAutomata
