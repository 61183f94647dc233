import WordAutomata.Names
import WordAutomata.Number.Binary64
import WordAutomata.Text.Decimal
import WordAutomata.Text.Quoted

/-!
# Data

What an automaton is described by before anything is checked: texts, numbers, truth values, nothing,
lists and records. A name is a text; any other datum may stand where a name is expected, and is then
refused or rejected. Equality of data is decidable.
-/
namespace WordAutomata

/-- An unchecked value. A record lists its fields in order. -/
inductive Datum where
  | null
  | bool (value : Bool)
  | int (value : Int)
  | real (value : Binary64)
  | text (value : String)
  | list (items : List Datum)
  | record (fields : List (String × Datum))
deriving Inhabited, Repr

namespace Datum

mutual

def same : Datum → Datum → Bool
  | null, null => true
  | bool a, bool b => a == b
  | int a, int b => a == b
  | real a, real b => a == b
  | text a, text b => a == b
  | list a, list b => sameItems a b
  | record a, record b => sameFields a b
  | _, _ => false

def sameItems : List Datum → List Datum → Bool
  | [], [] => true
  | a :: as, b :: bs => same a b && sameItems as bs
  | _, _ => false

def sameFields : List (String × Datum) → List (String × Datum) → Bool
  | [], [] => true
  | (k, a) :: as, (l, b) :: bs => k == l && same a b && sameFields as bs
  | _, _ => false

end

mutual

theorem same_iff : ∀ a b : Datum, same a b = true ↔ a = b
  | null, b => by cases b <;> simp [same]
  | bool _, b => by cases b <;> simp [same]
  | int _, b => by cases b <;> simp [same]
  | real _, b => by cases b <;> simp [same]
  | text _, b => by cases b <;> simp [same]
  | list as, b => by cases b <;> simp [same, sameItems_iff as]
  | record as, b => by cases b <;> simp [same, sameFields_iff as]

theorem sameItems_iff : ∀ as bs : List Datum, sameItems as bs = true ↔ as = bs
  | [], bs => by cases bs <;> simp [sameItems]
  | a :: as, bs => by cases bs <;> simp [sameItems, same_iff a, sameItems_iff as]

theorem sameFields_iff : ∀ as bs : List (String × Datum), sameFields as bs = true ↔ as = bs
  | [], bs => by cases bs <;> simp [sameFields]
  | (k, a) :: as, bs => by
    cases bs with
    | nil => simp [sameFields]
    | cons b bs => cases b; simp [sameFields, same_iff a, sameFields_iff as, and_assoc]

end

instance : DecidableEq Datum := fun a b => decidable_of_iff (same a b = true) (same_iff a b)

instance : Coe String Datum := ⟨text⟩

/-- The name that a datum is, if it is one. -/
def asText? : Datum → Option String
  | text s => some s
  | _ => none

@[simp] theorem asText?_text (s : String) : asText? (text s) = some s := rfl

theorem asText?_eq_some_iff {d : Datum} {s : String} : d.asText? = some s ↔ d = text s := by
  cases d <;> simp [asText?]

def names (items : List Datum) : List String := items.filterMap asText?

@[simp] theorem mem_names {a : String} {items : List Datum} : a ∈ names items ↔ text a ∈ items := by
  simp [names, asText?_eq_some_iff]

/-- Whether a datum is one of a set of names. It is meant for scalars. A list or a record cannot be
looked up in a set at all, and such a look-up is not modelled here: it counts as no member. -/
def isIn (d : Datum) (s : Names) : Bool :=
  match d with
  | text a => decide (a ∈ s)
  | _ => false

@[simp] theorem isIn_text {a : String} {s : Names} : (text a).isIn s = true ↔ a ∈ s := by
  simp [isIn]

theorem isIn_iff {d : Datum} {s : Names} : d.isIn s = true ↔ ∃ a, d = text a ∧ a ∈ s := by
  cases d <;> simp [isIn]

/-- The items that a datum consists of: those of a list, and the characters of a text. -/
def items? : Datum → Option (List Datum)
  | list items => some items
  | text s => some (s.toList.map fun c => text (String.singleton c))
  | _ => none

/-- The kind of a datum, as messages call it. -/
def kindName : Datum → String
  | null => "NoneType"
  | bool _ => "bool"
  | int _ => "int"
  | real _ => "float"
  | text _ => "str"
  | list _ => "list"
  | record _ => "dict"

/-- A scalar datum as messages show it. A list, a record or a real number never stands where a
message shows a datum; its kind stands for it. -/
def quoted : Datum → String
  | null => "None"
  | bool true => "True"
  | bool false => "False"
  | int i => Text.decimal i
  | text s => Text.quoted s
  | d => d.kindName

/-- Quoted data separated by a comma and a space. -/
def quotedList (items : List Datum) : String := ", ".intercalate (items.map quoted)

/-- The number by which data that are not names are ordered: a truth value counts as zero or one. -/
def rank : Datum → Int
  | bool b => b.toInt
  | int i => i
  | _ => 0

/-- A datum put behind those of smaller or equal rank. -/
def place (d : Datum) : List Datum → List Datum
  | [] => [d]
  | e :: rest => if d.rank < e.rank then d :: e :: rest else e :: place d rest

def byRank (items : List Datum) : List Datum := items.foldl (fun sorted d => place d sorted) []

/-- The data that are not names, by rank, and behind them the names of a set. -/
def listed (others : List Datum) (s : Names) : List Datum := byRank others ++ s.toList.map text

end Datum
end WordAutomata
