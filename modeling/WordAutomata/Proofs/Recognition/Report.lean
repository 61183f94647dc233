import WordAutomata.Proofs.Encoding
import WordAutomata.Proofs.Recognition.Failure

/-!
# What a report says of its word

Line by line a report tells how the run of its word ended. The run halts at the first symbol that it
cannot read, because the symbol is not in the alphabet or because the transition is dead, while
validity of a word is asked of all its symbols. The two come apart only at a dead transition: behind
it the word is not looked at. Everywhere else the position in the report tells what is known about
the symbols of the word.
-/
namespace WordAutomata

/-- What a report tells of the run of a word, as its reader sees it. -/
structure Account where
  accepted : Bool
  outcome : String
  reason : Option String
  position : Nat
deriving DecidableEq

namespace Account

/-- The record of an account of a line. -/
def toDatum (x : Account) (line : String) : Datum :=
  .record [("word", .text line), ("accepted", .bool x.accepted), ("outcome", .text x.outcome),
    ("reason", x.reason.elim .null .text), ("position", .int x.position)]

/-- An account agrees with itself and with the alphabet about the word. -/
structure Consistent (x : Account) (A : Alphabet) (w : Word) : Prop where
  accepted_iff_outcome : x.accepted = true ↔ x.outcome = "accepted"
  accepted_iff_reason : x.accepted = true ↔ x.reason = none
  of_accepted : x.accepted = true → x.position = w.length ∧ A.isWord w = true
  invalid_iff_reason : x.outcome = "invalid-word" ↔ x.reason = some "invalid-symbol"
  of_invalid : x.outcome = "invalid-word" →
    w.findIdx? (fun a => !A.isSymbol a) = some x.position
  of_dead : x.reason = some "dead-transition" →
    x.position < w.length ∧ A.isWord (w.take (x.position + 1)) = true
  of_notAccepting : x.reason = some "not-accepting" → x.position = w.length ∧ A.isWord w = true

def ofAccepted (w : Word) : Account := ⟨true, "accepted", none, w.length⟩

def ofRejected (reason : RejectionReason) (position : Nat) : Account where
  accepted := false
  outcome := if reason = .invalidSymbol then "invalid-word" else "rejected"
  reason := some reason.name
  position := position

end Account

theorem RejectionReason.name_eq_iff {r s : RejectionReason} : r.name = s.name ↔ r = s := by
  cases r <;> cases s <;> decide

/-! ## Symbols that were read -/

namespace Alphabet

variable {A : Alphabet} {w : Word} {a : Datum} {p : Nat}

/-- One more symbol of the alphabet is read. -/
theorem isWord_take_succ (hread : A.isWord (w.take p) = true) (ha : w[p]? = some a)
    (hsymbol : A.isSymbol a = true) : A.isWord (w.take (p + 1)) = true := by
  rw [List.take_add_one, ha, isWord, List.all_append, Bool.and_eq_true]
  refine ⟨hread, ?_⟩
  simpa using hsymbol

/-- A symbol outside the alphabet behind symbols of the alphabet is the first of its kind. -/
theorem findIdx?_of_isWord_take (hread : A.isWord (w.take p) = true) (ha : w[p]? = some a)
    (hsymbol : A.isSymbol a = false) : w.findIdx? (fun a => !A.isSymbol a) = some p := by
  obtain ⟨hlt, rfl⟩ := List.getElem?_eq_some_iff.1 ha
  rw [List.findIdx?_eq_some_iff_getElem]
  refine ⟨hlt, by simp [hsymbol], ?_⟩
  intro i hi
  have hmem : w[i] ∈ w.take p := by
    rw [List.mem_take_iff_getElem]
    exact ⟨i, by omega, rfl⟩
  simpa using List.all_eq_true.1 hread _ hmem

theorem isWord_eq_false_of_findIdx? (h : w.findIdx? (fun a => !A.isSymbol a) = some p) :
    A.isWord w = false := by
  obtain ⟨hlt, hsymbol, -⟩ := List.findIdx?_eq_some_iff_getElem.1 h
  rw [isWord, List.all_eq_false]
  exact ⟨w[p], List.getElem_mem hlt, by simpa using hsymbol⟩

end Alphabet

namespace Dfa

/-- No transition is dead. -/
def Total (M : Dfa) : Prop := ∀ q ∈ M.states, ∀ a ∈ M.alphabet.symbols, M.next? q a ≠ none

instance (M : Dfa) : Decidable M.Total :=
  inferInstanceAs (Decidable (∀ q ∈ M.states.toList, ∀ a ∈ M.alphabet.symbols.toList,
    M.next? q a ≠ none))

variable {M : Dfa} {q : String}

/-- The symbols that a word leads on with are in the alphabet. -/
theorem isWord_take_trace (M : Dfa) (w : Word) :
    ∀ q, M.alphabet.isWord (w.take (M.trace q w).length) = true := by
  induction w with
  | nil =>
    intro q
    rfl
  | cons a w ih =>
    intro q
    cases hmove : M.move q a with
    | into r =>
      have ha := isSymbol_of_move hmove
      simp only [trace, hmove, List.length_cons, List.take_succ_cons]
      rw [Alphabet.isWord, List.all_cons, ha, Bool.true_and]
      exact ih r
    | _ =>
      simp only [trace, hmove]
      rfl

theorem Total.next_ne (h : M.Total) {a : Datum} (hq : q ∈ M.states)
    (ha : M.alphabet.isSymbol a = true) : M.next (.text q) a ≠ .ok none := by
  obtain ⟨b, rfl, hb⟩ := Datum.isIn_iff.1 ha
  rw [next_eq_ok hq hb]
  intro hnone
  exact h q hq b hb (Except.ok.inj hnone)

end Dfa

/-! ## Accounts of runs -/

namespace Account

variable {A : Alphabet} {w : Word} {reason : RejectionReason} {position : Nat}

theorem consistent_ofAccepted (hword : A.isWord w = true) : (ofAccepted w).Consistent A w := by
  constructor
  case of_accepted => exact fun _ => ⟨rfl, hword⟩
  all_goals simp [ofAccepted]

/-- An account of a rejection is consistent if its position is right for its reason. -/
theorem consistent_ofRejected
    (hinvalid : reason = .invalidSymbol → w.findIdx? (fun a => !A.isSymbol a) = some position)
    (hdead : reason = .deadTransition →
      position < w.length ∧ A.isWord (w.take (position + 1)) = true)
    (hend : reason = .notAccepting → position = w.length ∧ A.isWord w = true) :
    (ofRejected reason position).Consistent A w := by
  have hname : ∀ s : RejectionReason, (ofRejected reason position).reason = some s.name →
      reason = s := fun s h => RejectionReason.name_eq_iff.1 (Option.some.inj h)
  have houtcome : (ofRejected reason position).outcome = "invalid-word" ↔
      reason = .invalidSymbol := by
    show (if reason = .invalidSymbol then "invalid-word" else "rejected") = "invalid-word" ↔ _
    by_cases hreason : reason = .invalidSymbol
    · rw [if_pos hreason]
      exact iff_of_true rfl hreason
    · rw [if_neg hreason]
      exact iff_of_false (by decide) hreason
  constructor
  case accepted_iff_outcome =>
    show false = true ↔ (if reason = .invalidSymbol then "invalid-word" else "rejected") = _
    split <;> decide
  case accepted_iff_reason => simp [ofRejected]
  case of_accepted => simp [ofRejected]
  case invalid_iff_reason =>
    rw [houtcome]
    constructor
    · intro h
      exact congrArg (fun r => some (RejectionReason.name r)) h
    · exact hname .invalidSymbol
  case of_invalid => exact fun h => hinvalid (houtcome.1 h)
  case of_dead => exact fun h => hdead (hname .deadTransition h)
  case of_notAccepting => exact fun h => hend (hname .notAccepting h)

/-- A consistent account accepts only words over the alphabet. -/
theorem Consistent.accepted_eq_false {x : Account} (h : x.Consistent A w)
    (hword : A.isWord w = false) : x.accepted = false := by
  by_contra hnot
  have hvalid := (h.of_accepted (by simpa using hnot)).2
  rw [hword] at hvalid
  cases hvalid

/-- Without dead transitions an account finds every word invalid that is not over the alphabet. -/
theorem Consistent.invalid_iff {x : Account} (h : x.Consistent A w)
    (hdead : x.reason ≠ some "dead-transition") (hknown : x.reason = none ∨
      ∃ reason : RejectionReason, x.reason = some reason.name) :
    x.outcome = "invalid-word" ↔ A.isWord w = false := by
  constructor
  · intro hinvalid
    exact Alphabet.isWord_eq_false_of_findIdx? (h.of_invalid hinvalid)
  · intro hword
    have hvalid : A.isWord w ≠ true := by simp [hword]
    obtain hnone | ⟨reason, hreason⟩ := hknown
    · exact absurd (h.of_accepted (h.accepted_iff_reason.2 hnone)).2 hvalid
    · cases reason with
      | invalidSymbol => exact h.invalid_iff_reason.2 hreason
      | deadTransition => exact absurd hreason hdead
      | notAccepting => exact absurd (h.of_notAccepting hreason).2 hvalid

end Account

namespace Dfa

variable {M : Dfa} {w : Word} {q : String} {p : Nat}

/-- Where a run is rejected that reads the first `p` symbols of its word, by the reason. -/
theorem Outcome.rejected {reason : RejectionReason} {s : String} {i : Nat} {symbol : Option Datum}
    (h : M.Outcome w q p (.rejected reason s i symbol))
    (hread : M.alphabet.isWord (w.take p) = true) :
    (reason = .invalidSymbol → w.findIdx? (fun a => !M.alphabet.isSymbol a) = some i) ∧
    (reason = .deadTransition → (i < w.length ∧ M.alphabet.isWord (w.take (i + 1)) = true) ∧
      ∃ a, M.alphabet.isSymbol a = true ∧ M.next (.text q) a = .ok none) ∧
    (reason = .notAccepting → i = w.length ∧ M.alphabet.isWord w = true) := by
  cases h with
  | notAccepting hp hfinal =>
    rw [hp, List.take_length] at hread
    exact ⟨by simp, by simp, fun _ => ⟨hp, hread⟩⟩
  | invalidSymbol hp ha =>
    exact ⟨fun _ => Alphabet.findIdx?_of_isWord_take hread hp ha, by simp, by simp⟩
  | deadTransition hp ha hnext =>
    refine ⟨by simp, fun _ => ⟨⟨?_, Alphabet.isWord_take_succ hread hp ha⟩, _, ha, hnext⟩, by simp⟩
    exact (List.getElem?_eq_some_iff.1 hp).1

/-- A report gives a consistent account of its run, and only a dead transition keeps an invalid word
from being found invalid. -/
theorem exists_account (M : Dfa) (line : String) (w : Word) : ∃ x : Account,
    (M.reportOn line w).toDatum = x.toDatum line ∧ x.accepted = M.accepts w ∧
    x.Consistent M.alphabet w ∧
    (M.Total → (x.outcome = "invalid-word" ↔ M.alphabet.isWord w = false)) := by
  obtain ⟨q, hq, -, hout⟩ := M.outcome_run w
  have hread := M.isWord_take_trace w M.initial
  rw [reportOn, accepts]
  cases hrun : M.run w with
  | running s i =>
    rw [hrun] at hout
    cases hout
  | accepted s =>
    rw [hrun] at hout
    cases hout with
    | accepted hp hfinal =>
      rw [hp, List.take_length] at hread
      have hconsistent := Account.consistent_ofAccepted hread
      refine ⟨.ofAccepted w, rfl, rfl, hconsistent, fun _ => ?_⟩
      exact hconsistent.invalid_iff (by simp [Account.ofAccepted]) (.inl rfl)
  | rejected reason s i symbol =>
    rw [hrun] at hout
    obtain ⟨hinvalid, hdead, hend⟩ := hout.rejected hread
    have hconsistent := Account.consistent_ofRejected hinvalid (fun h => (hdead h).1) hend
    refine ⟨.ofRejected reason i, ?_, rfl, hconsistent, fun htotal => ?_⟩
    · cases reason <;> rfl
    · refine hconsistent.invalid_iff ?_ (.inr ⟨reason, rfl⟩)
      intro hreason
      have hname : reason = .deadTransition :=
        RejectionReason.name_eq_iff.1 (Option.some.inj hreason)
      obtain ⟨-, a, ha, hnone⟩ := hdead hname
      exact htotal.next_ne hq ha hnone

/-- With a delimiter every line gets a record. It is accepted exactly if the outcome is `accepted`
and exactly if there is no reason, and then the word is over the alphabet and read to its end. The
outcome is `invalid-word` exactly if the reason is `invalid-symbol`, and then the position is that
of the first symbol outside the alphabet. Up to the symbol of a dead transition all symbols are in
the alphabet, and all symbols are where the run ends in a state that is not final. So no invalid
word is accepted, and without dead transitions exactly the invalid words have the outcome
`invalid-word`. -/
theorem records_explain_runs (M : Dfa) (delimiter : String) (hd : delimiter ≠ "") :
    ∃ (word : String → Word) (account : String → Account),
      (∀ line, Word.decode delimiter line = .ok (word line)) ∧
      (∀ lines, ∃ reports, M.recognize delimiter .each lines = .ok ⟨reports, none⟩ ∧
        reports.map Report.toDatum = lines.map fun line => (account line).toDatum line) ∧
      ∀ line, (account line).accepted = M.accepts (word line) ∧
        (account line).Consistent M.alphabet (word line) ∧
        (M.alphabet.isWord (word line) = false → (account line).accepted = false) ∧
        (M.Total → ((account line).outcome = "invalid-word" ↔
          M.alphabet.isWord (word line) = false)) := by
  obtain ⟨word, hword⟩ := Word.exists_decode hd
  have hsingle : Batching.each.HoldsLine := trivial
  choose account hrecord haccepts hconsistent htotal using
    fun line => M.exists_account line (word line)
  refine ⟨word, account, hword, ?_, ?_⟩
  · intro lines
    refine ⟨_, M.recognize_eq_ok hword hsingle lines, ?_⟩
    rw [List.map_map]
    exact List.map_congr_left fun line _ => hrecord line
  · intro line
    exact ⟨haccepts line, hconsistent line, (hconsistent line).accepted_eq_false, htotal line⟩

/-- No transition of the parity automaton is dead, so the line `1::2` is found invalid. -/
theorem invalid_line_of_parity : ∃ M, Language.build Language.parity = .ok M ∧ M.Total ∧
    "::" ≠ "" ∧ ∃ (w : Word) (x : Account), Word.decode "::" "1::2" = .ok w ∧
      (∃ reports, M.recognize "::" .each ["1::2"] = .ok ⟨reports, none⟩ ∧
        reports.map Report.toDatum = [x.toDatum "1::2"]) ∧
      x.Consistent M.alphabet w ∧ M.alphabet.isWord w = false ∧ x.accepted = false ∧
      x.outcome = "invalid-word" := by
  obtain ⟨M, hM, htotal, hinvalid⟩ : ∃ M, Language.build Language.parity = .ok M ∧ M.Total ∧
      M.alphabet.isWord (.ofNames ["1", "2"]) = false := ⟨_, rfl, by decide, by decide⟩
  have hd : "::" ≠ "" := by decide
  have hne : "::".toList ≠ [] := by decide
  have hencode : Word.encode "::" ["1", "2"] = "1::2" := by decide
  have hnames : Word.decodeNames "::" (Word.encode "::" ["1", "2"]) = .ok ["1", "2"] :=
    (Word.decodeNames_encode_iff hne).2 (by decide)
  have hdecode : Word.decode "::" "1::2" = .ok (.ofNames ["1", "2"]) := by
    rw [Word.decode, ← hencode, hnames]
    rfl
  obtain ⟨word, account, hword, hreports, haccount⟩ := M.records_explain_runs "::" hd
  have hw : word "1::2" = .ofNames ["1", "2"] :=
    Except.ok.inj ((hword "1::2").symm.trans hdecode)
  obtain ⟨-, hconsistent, hrejected, houtcome⟩ := haccount "1::2"
  rw [hw] at hconsistent hrejected houtcome
  exact ⟨M, hM, htotal, hd, _, account "1::2", hdecode, hreports ["1::2"], hconsistent, hinvalid,
    hrejected hinvalid, (houtcome htotal).2 hinvalid⟩

end Dfa
end WordAutomata
