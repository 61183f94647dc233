import WordAutomata.Proofs.Dfa.Construction
import WordAutomata.Proofs.Text.Quoted

/-!
# What makes an alphabet

Items make an alphabet if there are any and they are distinct symbols. Otherwise there is a first
item with which, behind the items before it, something is wrong, and that is what is reported. An
alphabet lists the items that it was made from in increasing order. So two alphabets are equal
exactly if they were made from the same items, and that can be told from their lists and from their
displays alone.
-/
namespace WordAutomata
namespace Alphabet

/-- Distinct names that are not empty and do not contain the delimiter, at least one of them. -/
structure Listable (items : List Datum) : Prop where
  ne_nil : items ≠ []
  named : ∀ d ∈ items, ∃ a, d = .text a ∧ a ≠ "" ∧ ',' ∉ a.toList
  nodup : items.Nodup

/-- What is wrong with an item behind others. It has to be a name that is not empty, then one
without the delimiter, and then a new one. -/
inductive Unfit (before : List Datum) : Datum → AlphabetDefect → Prop where
  | empty {d : Datum} (h : ¬ ∃ a, d = .text a ∧ a ≠ "") : Unfit before d .emptySymbol
  | delimiter {a : String} (hne : a ≠ "") (h : ',' ∈ a.toList) :
      Unfit before (.text a) (.delimiterInSymbol a)
  | repeated {a : String} (hne : a ≠ "") (hcomma : ',' ∉ a.toList) (h : .text a ∈ before) :
      Unfit before (.text a) (.repeatedSymbol a)

/-- The place of the first item with which something is wrong, when the items are given behind
others, and what is wrong with it. -/
structure FirstUnfit (before items : List Datum) (i : Nat) (defect : AlphabetDefect) : Prop where
  unfit : ∃ d, items[i]? = some d ∧ Unfit (before ++ items.take i) d defect
  fit_before : ∀ j < i, ∀ d, items[j]? = some d → ∀ other, ¬ Unfit (before ++ items.take j) d other

/-- What an alphabet shows of the items that it was made from: it lists them in increasing order by
code point, each once, and what is asked about a datum is whether it is one of them. -/
structure Shows (A : Alphabet) (items : List Datum) : Prop where
  increasing : A.toList.Pairwise (· < ·)
  perm : (A.toList.map Datum.text).Perm items
  size_eq : A.size = items.length
  mem_iff : ∀ a, a ∈ A.symbols ↔ .text a ∈ items
  isSymbol_iff : ∀ d, A.isSymbol d = true ↔ d ∈ items
  isWord_iff : ∀ d, (Word.ofDatum? (.list [d])).any A.isWord = true ↔ d ∈ items

/-! ## The scan -/

section Scan

variable {before items rest : List Datum} {d : Datum} {a : String} {i : Nat}
  {defect other : AlphabetDefect}

theorem Unfit.unique (h : Unfit before d defect) (h' : Unfit before d other) : defect = other := by
  cases h with
  | empty hd =>
    cases h' with
    | empty => rfl
    | delimiter hne => exact absurd ⟨_, rfl, hne⟩ hd
    | repeated hne => exact absurd ⟨_, rfl, hne⟩ hd
  | delimiter hne hcomma =>
    cases h' with
    | empty hd => exact absurd ⟨_, rfl, hne⟩ hd
    | delimiter => rfl
    | repeated _ hno => exact absurd hcomma hno
  | repeated hne hno =>
    cases h' with
    | empty hd => exact absurd ⟨_, rfl, hne⟩ hd
    | delimiter _ hcomma => exact absurd hcomma hno
    | repeated => rfl

theorem Unfit.iff (h : Unfit before d defect) : Unfit before d other ↔ defect = other :=
  ⟨h.unique, fun he => he ▸ h⟩

/-- Nothing is wrong with a new symbol. -/
theorem not_unfit (hne : a ≠ "") (hcomma : ',' ∉ a.toList) (hnew : .text a ∉ before) :
    ¬ Unfit before (.text a) defect := by
  intro h
  cases h with
  | empty hd => exact hd ⟨a, rfl, hne⟩
  | delimiter _ h => exact hcomma h
  | repeated _ _ h => exact hnew h

theorem not_firstUnfit_nil : ¬ FirstUnfit before [] i defect := by
  intro h
  obtain ⟨d, hd, -⟩ := h.unfit
  cases hd

theorem firstUnfit_zero_iff :
    FirstUnfit before (d :: rest) 0 defect ↔ Unfit before d defect := by
  constructor
  · intro h
    obtain ⟨e, he, hunfit⟩ := h.unfit
    cases he
    rwa [List.take_zero, List.append_nil] at hunfit
  · intro h
    refine ⟨⟨d, rfl, ?_⟩, fun j hj => absurd hj (Nat.not_lt_zero j)⟩
    rwa [List.take_zero, List.append_nil]

/-- Behind an item with which nothing is wrong, that item counts among those before. -/
theorem firstUnfit_succ_iff : FirstUnfit before (d :: rest) (i + 1) defect ↔
    (∀ other, ¬ Unfit before d other) ∧ FirstUnfit (before ++ [d]) rest i defect := by
  have htake : ∀ j, before ++ (d :: rest).take (j + 1) = before ++ [d] ++ rest.take j := by
    intro j
    rw [List.take_succ_cons, List.append_assoc, List.singleton_append]
  constructor
  · intro h
    obtain ⟨e, he, hunfit⟩ := h.unfit
    rw [htake] at hunfit
    refine ⟨fun other => ?_, ⟨e, he, hunfit⟩, fun j hj f hf other => ?_⟩
    · have hfront := h.fit_before 0 (Nat.succ_pos i) d rfl other
      rwa [List.take_zero, List.append_nil] at hfront
    · rw [← htake]
      exact h.fit_before (j + 1) (Nat.succ_lt_succ hj) f hf other
  · intro hall
    obtain ⟨hfront, h⟩ := hall
    obtain ⟨e, he, hunfit⟩ := h.unfit
    rw [← htake] at hunfit
    refine ⟨⟨e, he, hunfit⟩, fun j hj f hf other => ?_⟩
    cases j with
    | zero =>
      cases hf
      rw [List.take_zero, List.append_nil]
      exact hfront other
    | succ j =>
      rw [htake]
      exact h.fit_before j (Nat.lt_of_succ_lt_succ hj) f hf other

/-- The first unfit item is the one in front, or the first one behind it. -/
theorem exists_firstUnfit_cons_iff : (∃ i, FirstUnfit before (d :: rest) i defect) ↔
    Unfit before d defect ∨
      (∀ other, ¬ Unfit before d other) ∧ ∃ i, FirstUnfit (before ++ [d]) rest i defect := by
  constructor
  · intro hexists
    obtain ⟨i, h⟩ := hexists
    cases i with
    | zero => exact .inl (firstUnfit_zero_iff.1 h)
    | succ i =>
      obtain ⟨hfront, hrest⟩ := firstUnfit_succ_iff.1 h
      exact .inr ⟨hfront, i, hrest⟩
  · intro hcases
    obtain h | ⟨hfront, i, hrest⟩ := hcases
    · exact ⟨0, firstUnfit_zero_iff.2 h⟩
    · exact ⟨i + 1, firstUnfit_succ_iff.2 ⟨hfront, hrest⟩⟩

/-- The scan reports what is wrong with the first unfit item. The names that it has seen are those
of the items before. -/
theorem defectAfter?_eq_some_iff {seen : List String} (hseen : ∀ a, a ∈ seen ↔ .text a ∈ before) :
    defectAfter? seen items = some defect ↔
      (seen = [] ∧ items = [] ∧ defect = .noSymbols) ∨ ∃ i, FirstUnfit before items i defect := by
  fun_induction defectAfter? seen items generalizing before with
  | case1 => simp [not_firstUnfit_nil, eq_comm]
  | case2 seen hne => simp [hne, not_firstUnfit_nil]
  | case3 seen rest =>
    have hunfit : Unfit before (.text "") .emptySymbol := .empty (by simp)
    simp [exists_firstUnfit_cons_iff, hunfit.iff]
  | case4 seen a rest hne hcomma =>
    have hunfit : Unfit before (.text a) (.delimiterInSymbol a) := .delimiter hne hcomma
    simp [exists_firstUnfit_cons_iff, hunfit.iff]
  | case5 seen a rest hne hcomma hmem =>
    have hunfit : Unfit before (.text a) (.repeatedSymbol a) :=
      .repeated hne hcomma ((hseen a).1 hmem)
    simp [exists_firstUnfit_cons_iff, hunfit.iff]
  | case6 seen a rest hne hcomma hnew ih =>
    have hfit : ∀ other, ¬ Unfit before (.text a) other :=
      fun _ => not_unfit hne hcomma fun hmem => hnew ((hseen a).2 hmem)
    have hseen' : ∀ b, b ∈ a :: seen ↔ .text b ∈ before ++ [.text a] := by
      intro b
      rw [List.mem_cons, List.mem_append, List.mem_singleton, hseen, or_comm, Datum.text.injEq]
    simp [ih hseen', exists_firstUnfit_cons_iff, hfit]
  | case7 seen d rest hd =>
    have hunfit : Unfit before d .emptySymbol := by
      refine .empty fun hnamed => ?_
      obtain ⟨a, ha, -⟩ := hnamed
      exact hd a ha
    simp [exists_firstUnfit_cons_iff, hunfit.iff]

end Scan

/-! ## Alphabets of items -/

variable {items others : List Datum} {A B : Alphabet} {defect : AlphabetDefect}

theorem ofItems_eq_ok_iff :
    ofItems items = .ok A ↔ ∃ h : defect? items = none, ofFit items h = A := by
  unfold ofItems
  split
  · rename_i h
    simp [h]
  · rename_i h
    simp [h]

theorem ofItems_eq_error_iff : ofItems items = .error defect ↔ defect? items = some defect := by
  unfold ofItems
  split
  · rename_i h
    simp [h]
  · rename_i h
    simp [h]

theorem listable_iff : Listable items ↔ defect? items = none := by
  rw [defect?_eq_none_iff]
  constructor
  · intro h
    exact ⟨h.ne_nil, h.named, h.nodup⟩
  · intro hall
    obtain ⟨hne, hnamed, hnodup⟩ := hall
    exact ⟨hne, hnamed, hnodup⟩

theorem exists_ofItems_iff : (∃ A, ofItems items = .ok A) ↔ Listable items := by
  simp only [ofItems_eq_ok_iff, listable_iff]
  constructor
  · intro hmade
    obtain ⟨A, h, -⟩ := hmade
    exact h
  · exact fun h => ⟨_, h, rfl⟩

theorem defect?_eq_some_iff : defect? items = some defect ↔
    (items = [] ∧ defect = .noSymbols) ∨ ∃ i, FirstUnfit [] items i defect := by
  have hseen : ∀ a, a ∈ ([] : List String) ↔ Datum.text a ∈ ([] : List Datum) := by simp
  rw [defect?, defectAfter?_eq_some_iff hseen, and_iff_right rfl]

theorem ofItems_eq_noSymbols_iff : ofItems items = .error .noSymbols ↔ items = [] := by
  rw [ofItems_eq_error_iff, defect?_eq_some_iff]
  constructor
  · intro hcases
    obtain ⟨hnil, -⟩ | ⟨i, hfirst⟩ := hcases
    · exact hnil
    · -- no item is to blame for there being none
      obtain ⟨d, -, hunfit⟩ := hfirst.unfit
      cases hunfit
  · intro hnil
    exact .inl ⟨hnil, rfl⟩

/-- The symbols of an alphabet are the items that it was made from, each once. -/
theorem shows_of_ofItems (h : ofItems items = .ok A) : A.Shows items := by
  obtain ⟨hdefect, rfl⟩ := ofItems_eq_ok_iff.1 h
  have hlist := listable_iff.2 hdefect
  have hnames : ∀ d ∈ items, ∃ a, d = .text a := by
    intro d hd
    obtain ⟨a, ha, -⟩ := hlist.named d hd
    exact ⟨a, ha⟩
  have hperm := Datum.map_text_ofList_names_perm hnames hlist.nodup
  have hsymbol : ∀ d, (ofFit items hdefect).isSymbol d = true ↔ d ∈ items :=
    Datum.isIn_ofList_names hnames
  constructor
  · exact (ofFit items hdefect).symbols.increasing
  · exact hperm
  · rw [← hperm.length_eq, List.length_map]
    rfl
  · exact fun a => Datum.isIn_text.symm.trans (hsymbol (.text a))
  · exact hsymbol
  · intro d
    simp [Word.ofDatum?, isWord, hsymbol]

theorem display_injective : Function.Injective display := by
  intro A B h
  have hnames := congrArg String.toList h
  simp only [display, String.toList_append, List.append_left_inj, List.append_right_inj] at hnames
  exact ext (Names.ext (Text.quotedList_injective (String.toList_injective hnames)))

theorem eq_iff_perm (hA : ofItems items = .ok A) (hB : ofItems others = .ok B) :
    A = B ↔ items.Perm others := by
  have hpermA := (shows_of_ofItems hA).perm
  have hpermB := (shows_of_ofItems hB).perm
  constructor
  · intro h
    subst h
    exact hpermA.symm.trans hpermB
  · intro h
    exact ext (Names.eq_of_map_text_perm ((hpermA.trans h).trans hpermB.symm))

/-- Items make an alphabet exactly if they are distinct symbols and there are any. Otherwise what is
wrong with the first unfit item is reported, or that there is none. An alphabet shows its items and
nothing else, so equality, the list of the symbols and the display all tell whether two alphabets
were made from the same items. The items can be any data. What is asked for in an alphabet is a
scalar: a list or a record, which cannot be looked up, counts as no symbol. -/
theorem items_decide_alphabet (items : List Datum) :
    ((∃ A, ofItems items = .ok A) ↔ Listable items) ∧
    (ofItems items = .error .noSymbols ↔ items = []) ∧
    (items ≠ [] → ∀ defect,
      ofItems items = .error defect ↔ ∃ i, FirstUnfit [] items i defect) ∧
    ∀ A, ofItems items = .ok A → A.Shows items ∧
      ∀ others B, ofItems others = .ok B →
        (A = B ↔ items.Perm others) ∧
        (A = B ↔ A.toList = B.toList) ∧
        (A = B ↔ A.display = B.display) := by
  refine ⟨exists_ofItems_iff, ofItems_eq_noSymbols_iff, fun hne defect => ?_, fun A hA => ?_⟩
  · rw [ofItems_eq_error_iff, defect?_eq_some_iff]
    exact or_iff_right fun hnil => hne hnil.1
  · refine ⟨shows_of_ofItems hA, fun others B hB => ⟨eq_iff_perm hA hB, ?_, ?_⟩⟩
    · exact ⟨congrArg toList, fun h => ext (Names.ext h)⟩
    · exact display_injective.eq_iff.symm

/-- The order of the items is not shown, and each symbol gets the quotes that suit it. What stands
behind the first unfit item is not looked at. -/
theorem reordered_items_display_alike :
    (∃ A B, ofItems [.text "it's", .text "b", .text "\""] = .ok A ∧
      ofItems [.text "b", .text "\"", .text "it's"] = .ok B ∧
      A = B ∧ A.display = "Alphabet(['\"', 'b', \"it's\"])") ∧
    ofItems [.text "b", .text "a,", .text "b", .null] = .error (.delimiterInSymbol "a,") := by
  refine ⟨⟨_, _, rfl, rfl, ?_, rfl⟩, ?_⟩
  · obtain ⟨-, -, -, hlisted⟩ := items_decide_alphabet [.text "it's", .text "b", .text "\""]
    obtain ⟨-, hequal⟩ := hlisted _ rfl
    exact (hequal [.text "b", .text "\"", .text "it's"] _ rfl).1.2 (by decide)
  · obtain ⟨-, -, hdefect, -⟩ := items_decide_alphabet [.text "b", .text "a,", .text "b", .null]
    refine (hdefect (by simp) _).2 ⟨1, ⟨_, rfl, .delimiter (by decide) (by decide)⟩, ?_⟩
    intro j hj d hd other
    obtain rfl := Nat.lt_one_iff.1 hj
    cases hd
    exact not_unfit (by decide) (by decide) List.not_mem_nil

end Alphabet
end WordAutomata
