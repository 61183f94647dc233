/-!
# Fields in order

A table from names is a list of fields; a name may be of any type whose equality is decidable.
Putting a field whose name is there already replaces its value where it stands; a new one goes to
the end. So every name stands once, in the place where it was first put and with the value that was
put last.
-/
namespace WordAutomata

/-- Values under names, in order. -/
abbrev Fields (κ α : Type) := List (κ × α)

namespace Fields

variable {κ α : Type} [DecidableEq κ]

def put (name : κ) (value : α) : Fields κ α → Fields κ α
  | [] => [(name, value)]
  | field :: rest =>
    if field.1 = name then (name, value) :: rest else field :: put name value rest

/-- The table of the given pairs, put one after the other. -/
def ofPairs (pairs : List (κ × α)) : Fields κ α :=
  pairs.foldl (fun fields pair => fields.put pair.1 pair.2) []

def names (fields : Fields κ α) : List κ := fields.map Prod.fst

def get? (fields : Fields κ α) (name : κ) : Option α :=
  match fields with
  | [] => none
  | field :: rest => if field.1 = name then some field.2 else get? rest name

/-- Putting a field changes what is under its name and nothing else. -/
theorem get?_put (fields : Fields κ α) (name other : κ) (value : α) :
    (fields.put name value).get? other =
      if name = other then some value else fields.get? other := by
  induction fields with
  | nil => rfl
  | cons field rest ih =>
    unfold put
    split
    · rename_i h
      simp only [get?, h]
      split <;> rfl
    · rename_i h
      rw [get?, get?, ih]
      split
      · rename_i he
        rw [if_neg fun hn => h (he.trans hn.symm)]
      · rfl

/-- Putting a field keeps the names in their places, and a new name goes to the end. -/
theorem names_put (fields : Fields κ α) (name : κ) (value : α) :
    (fields.put name value).names =
      if name ∈ fields.names then fields.names else fields.names ++ [name] := by
  induction fields with
  | nil => rfl
  | cons field rest ih =>
    unfold put
    split
    · rename_i h
      simp [names, h]
    · rename_i h
      have hne : name ≠ field.1 := fun he => h he.symm
      simp only [names, List.map_cons, List.mem_cons, hne, false_or] at ih ⊢
      rw [ih]
      split <;> simp_all

/-- A field with a new name goes to the end. -/
theorem put_of_not_mem {fields : Fields κ α} {name : κ} (h : name ∉ fields.names) (value : α) :
    fields.put name value = fields ++ [(name, value)] := by
  induction fields with
  | nil => rfl
  | cons field rest ih =>
    rw [names, List.map_cons, List.mem_cons, not_or] at h
    rw [put, if_neg fun he => h.1 he.symm, ih h.2]
    rfl

omit [DecidableEq κ] in
theorem not_mem_names_of_nodup {fields : Fields κ α} {name : κ} {others : List κ}
    (h : (fields.names ++ name :: others).Nodup) : name ∉ fields.names := by
  intro hmem
  exact (List.nodup_append.1 h).2.2 name hmem name List.mem_cons_self rfl

/-- A name has a value exactly when it stands among the names. -/
theorem isSome_get?_iff (fields : Fields κ α) (name : κ) :
    (fields.get? name).isSome = true ↔ name ∈ fields.names := by
  induction fields with
  | nil => simp [get?, names]
  | cons field rest ih =>
    rw [get?]
    split
    · rename_i h
      simp [names, h]
    · rename_i h
      have hne : name ≠ field.1 := fun he => h he.symm
      simpa [names, hne] using ih

end Fields
end WordAutomata
