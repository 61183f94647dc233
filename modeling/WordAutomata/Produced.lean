/-!
# Items produced before a failure

A source of items may fail part way. What it produced before that is kept beside the failure.
-/
namespace WordAutomata

/-- The items that were produced, and the failure that ended production early, if one did. -/
structure Produced (ε α : Type) where
  items : List α
  failure : Option ε
deriving DecidableEq

namespace Produced

variable {ε α β : Type}

def done : Produced ε α := ⟨[], none⟩

def fail (failure : ε) : Produced ε α := ⟨[], some failure⟩

def before (items : List α) (rest : Produced ε α) : Produced ε α :=
  ⟨items ++ rest.items, rest.failure⟩

def map (f : α → β) (p : Produced ε α) : Produced ε β := ⟨p.items.map f, p.failure⟩

end Produced
end WordAutomata
