import WordAutomata.Files.Tree
import WordAutomata.Proofs.Except

/-!
# What is kept when a file is written

Making directories adds directories where nothing was. A file is put where there is no directory. So
a path that led somewhere leads there still, every other file keeps its content, and the path of the
file leads to the new content.
-/
namespace WordAutomata.Files.Tree

variable {t t' : Tree} {place : Location}

/-- The second tree is the first one with more directories, where nothing was before. -/
def AddsDirectories (t t' : Tree) : Prop :=
  ∀ place, t'.node? place = t.node? place ∨
    t.node? place = none ∧ t'.node? place = some .directory

/-- What is a directory in the first tree is one in the second. -/
def KeepsDirectories (t t' : Tree) : Prop :=
  ∀ place, t.node? place = some .directory → t'.node? place = some .directory

theorem AddsDirectories.refl (t : Tree) : AddsDirectories t t := fun _ => .inl rfl

theorem AddsDirectories.node?_eq_some (h : AddsDirectories t t') {node : Node}
    (hnode : t.node? place = some node) : t'.node? place = some node := by
  rcases h place with he | ⟨hnone, -⟩
  · rw [he, hnode]
  · rw [hnone] at hnode
    cases hnode

theorem AddsDirectories.trans {t'' : Tree} (h : AddsDirectories t t')
    (h' : AddsDirectories t' t'') : AddsDirectories t t'' := by
  intro place
  rcases h place with he | ⟨hnone, hdir⟩
  · rw [← he]
    exact h' place
  · exact .inr ⟨hnone, h'.node?_eq_some hdir⟩

theorem AddsDirectories.keeps (h : AddsDirectories t t') : KeepsDirectories t t' :=
  fun _ => h.node?_eq_some

/-! ## Paths -/

theorem follow_of_keeps (h : KeepsDirectories t t') {names : List String} {place last : Location}
    (hf : t.follow place names = .ok last) : t'.follow place names = .ok last := by
  induction names generalizing place with
  | nil => exact hf
  | cons name rest ih =>
    rw [follow] at hf ⊢
    split at hf
    · cases hf
    rename_i hlong
    rw [if_neg hlong]
    split at hf
    · rename_i hrest
      rw [if_pos hrest]
      exact hf
    rename_i hrest
    rw [if_neg hrest]
    cases hnode : t.node? (place.step name) with
    | none =>
      rw [hnode] at hf
      cases hf
    | some node =>
      cases node with
      | directory =>
        rw [hnode] at hf
        rw [h _ hnode]
        exact ih hf
      | file content =>
        rw [hnode] at hf
        cases hf

/-- A path leads to the same place as long as the directories are there. -/
theorem locate_of_keeps (h : KeepsDirectories t t') {p : Path} (hp : t.locate p = .ok place) :
    t'.locate p = .ok place := by
  rw [locate] at hp ⊢
  split at hp
  · cases hp
  rename_i hnull
  rw [if_neg hnull]
  split at hp
  · cases hp
  rename_i hlong
  rw [if_neg hlong]
  exact follow_of_keeps h hp

/-- A file is read exactly where its path leads to. -/
theorem read_eq_ok_iff {p : Path} {content : String} : t.read p = .ok content ↔
    ∃ place, t.locate p = .ok place ∧ t.node? place = some (.file content) := by
  rw [read]
  cases t.locate p with
  | error fault => simp
  | ok place =>
    cases hnode : t.node? place with
    | none => simp [hnode]
    | some node => cases node <;> simp [hnode]

/-! ## Directories -/

theorem addsDirectories_makeDirectory {p : Path} (h : t.makeDirectory p = .ok t') :
    AddsDirectories t t' := by
  rw [makeDirectory] at h
  cases hp : t.locate p with
  | error fault =>
    rw [hp] at h
    cases h
  | ok place =>
    rw [hp] at h
    cases hnode : t.node? place with
    | none =>
      simp only [hnode] at h
      cases h
      intro other
      rw [node?_put]
      split
      · rename_i he
        exact .inr ⟨he.1 ▸ hnode, rfl⟩
      · exact .inl rfl
    | some node =>
      cases node with
      | directory =>
        simp only [hnode] at h
        cases h
        exact .refl t
      | file content =>
        simp only [hnode] at h
        cases h

theorem addsDirectories_makeDirectoriesUp {slashes : Nat} {names : List String}
    (h : t.makeDirectoriesUp slashes names = .ok t') : AddsDirectories t t' := by
  induction names generalizing t' with
  | nil =>
    cases h
    exact .refl t
  | cons name above ih =>
    rw [makeDirectoriesUp] at h
    cases hmake : t.makeDirectory ⟨slashes, (name :: above).reverse⟩ with
    | ok made =>
      simp only [hmake] at h
      cases h
      exact addsDirectories_makeDirectory hmake
    | error fault =>
      cases fault with
      | missing =>
        -- The directories above are made first.
        simp only [hmake] at h
        cases hup : t.makeDirectoriesUp slashes above with
        | error e =>
          simp only [hup] at h
          cases h
        | ok made =>
          simp only [hup] at h
          exact (ih hup).trans (addsDirectories_makeDirectory (mapError_eq_ok_iff.1 h))
      | _ =>
        simp only [hmake] at h
        cases h

/-! ## The written file -/

theorem isAround_eq_false (h : t.node? place ≠ some .directory) : place.isAround = false := by
  rw [node?] at h
  split at h
  · exact absurd rfl h
  · rename_i hplace
    exact Bool.eq_false_iff.2 hplace

theorem node?_put_self (h : t.node? place ≠ some .directory) (node : Node) :
    (t.put place node).node? place = some node := by
  rw [node?_put, if_pos ⟨rfl, isAround_eq_false h⟩]

theorem node?_put_of_ne {other : Location} (h : other ≠ place) (node : Node) :
    (t.put place node).node? other = t.node? other := by
  rw [node?_put, if_neg fun he => h he.1.symm]

theorem keepsDirectories_put (h : t.node? place ≠ some .directory) (node : Node) :
    KeepsDirectories t (t.put place node) := by
  intro other hother
  have hne : other ≠ place := by
    rintro rfl
    exact h hother
  rw [node?_put_of_ne hne, hother]

/-- The second tree has a content in the file that a path denotes, and otherwise only more
directories than the first. -/
structure Writes (t : Tree) (p : Path) (place : Location) (content : String) (t' : Tree) :
    Prop where
  locate : t'.locate p = .ok place
  file : t'.node? place = some (.file content)
  not_directory : t.node? place ≠ some .directory
  others : ∀ other, other ≠ place →
    t'.node? other = t.node? other ∨ t.node? other = none ∧ t'.node? other = some .directory

theorem emptyFile_eq_ok_iff {p : Path} : t.emptyFile p = .ok (place, t') ↔
    ∃ made, t.makeDirectories p.parent = .ok made ∧ made.locate p = .ok place ∧
      made.node? place ≠ some .directory ∧ t' = made.put place (.file "") := by
  rw [emptyFile]
  cases t.makeDirectories p.parent with
  | error e => simp
  | ok made =>
    cases hp : made.locate p with
    | error fault => simp [hp]
    | ok last =>
      by_cases hdir : made.node? last = some .directory
      · simp only [hp, if_pos hdir]
        constructor
        · intro h
          cases h
        · rintro ⟨_, ⟨⟩, hlast, hne, -⟩
          cases hp.symm.trans hlast
          exact absurd hdir hne
      · simp only [hp, if_neg hdir]
        constructor
        · intro h
          cases h
          exact ⟨made, rfl, hp, hdir, rfl⟩
        · rintro ⟨_, ⟨⟩, hlast, -, rfl⟩
          cases hp.symm.trans hlast
          rfl

theorem writes_of_emptyFile {p : Path} (h : t.emptyFile p = .ok (place, t')) :
    Writes t p place "" t' := by
  obtain ⟨made, hmake, hp, hdir, rfl⟩ := emptyFile_eq_ok_iff.1 h
  have hadds := addsDirectories_makeDirectoriesUp hmake
  refine ⟨?_, node?_put_self hdir _, ?_, ?_⟩
  · exact locate_of_keeps (keepsDirectories_put hdir _) hp
  · exact fun hold => hdir (hadds.keeps place hold)
  · intro other hother
    rw [node?_put_of_ne hother]
    exact hadds other

namespace Writes

variable {p : Path} {content : String}

/-- The file can be written again. -/
theorem fill (h : Writes t p place content t') (more : String) :
    Writes t p place more (t'.put place (.file more)) := by
  have hdir : t'.node? place ≠ some .directory := by simp [h.file]
  refine ⟨?_, node?_put_self hdir _, h.not_directory, ?_⟩
  · exact locate_of_keeps (keepsDirectories_put hdir _) h.locate
  · intro other hother
    rw [node?_put_of_ne hother]
    exact h.others other hother

theorem keepsDirectories (h : Writes t p place content t') : KeepsDirectories t t' := by
  intro other hother
  have hne : other ≠ place := by
    rintro rfl
    exact h.not_directory hother
  rcases h.others other hne with he | ⟨hnone, -⟩
  · rw [he, hother]
  · rw [hnone] at hother
    cases hother

theorem read (h : Writes t p place content t') : t'.read p = .ok content :=
  read_eq_ok_iff.2 ⟨place, h.locate, h.file⟩

theorem file_iff (h : Writes t p place content t') {other : Location} (hother : other ≠ place)
    (old : String) : t'.node? other = some (.file old) ↔ t.node? other = some (.file old) := by
  rcases h.others other hother with he | ⟨hnone, hdir⟩
  · rw [he]
  · simp [hnone, hdir]

/-- A path that does not denote the written file denotes a file with its old content. -/
theorem read_other (h : Writes t p place content t') {q : Path} {old : String}
    (hq : t.locate q ≠ .ok place) (hread : t.read q = .ok old) : t'.read q = .ok old := by
  obtain ⟨other, hother, hfile⟩ := read_eq_ok_iff.1 hread
  have hne : other ≠ place := by
    rintro rfl
    exact hq hother
  exact read_eq_ok_iff.2
    ⟨other, locate_of_keeps h.keepsDirectories hother, (h.file_iff hne old).2 hfile⟩

end Writes

end WordAutomata.Files.Tree
