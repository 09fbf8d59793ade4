import DiceFormula.Roll.Edit
import Mathlib.Data.List.Perm.Basic

/-! Changes to a roll are made as a whole or not at all. A change that names no place of the roll
leaves everything as it was; every other one gives account of the values that it takes away. -/
namespace DiceFormula.Roll

inductive Change
  | read (index : Nat)
  | set (index : Nat) (a : Number)
  | erase (index : Nat)
  | discard (index : Nat)
  | discardRange (first last : Nat)
  | replace (index : Nat) (a : Number)
  | replaceRange (first last : Nat) (replacement : List Number)

namespace Edit
variable {α : Type}

theorem check_bind (passes : Roll → Bool) (fault : Fault) (next : Unit → Edit α) (r : Roll) :
    (check passes fault >>= next) r = if passes r then next () r else (.error fault, r) := by
  by_cases h : passes r = true <;> simp only [Rolling.bind_apply, check, h] <;> rfl

theorem checkIndex_bind (index : Nat) (next : Unit → Edit α) (r : Roll) :
    (checkIndex index >>= next) r =
      if index < r.values.length then next () r else (.error (.indexOutside index), r) := by
  rw [checkIndex, check_bind]
  simp only [decide_eq_true_eq]

theorem checkRange_bind (first last : Nat) (next : Unit → Edit α) (r : Roll) :
    (checkRange first last >>= next) r =
      if first ≤ last ∧ last ≤ r.values.length then next () r
      else (.error (.rangeOutside first last), r) := by
  rw [checkRange, check_bind]
  simp only [hasRange, Bool.and_eq_true, decide_eq_true_eq]

theorem bind_assoc {β γ : Type} (e : Edit α) (f : α → Edit β) (g : β → Edit γ) :
    e >>= f >>= g = e >>= fun a => f a >>= g := by
  funext r
  simp only [Rolling.bind_apply]
  rcases e r with ⟨_ | a, s⟩ <;> rfl

end Edit

namespace Change

def edit : Change → Edit (Option Number)
  | .read index => do return some (← Edit.value index)
  | .set index a => do Edit.set index a; return none
  | .erase index => do Edit.erase index; return none
  | .discard index => do Edit.discard index; return none
  | .discardRange first last => do Edit.discardRange first last; return none
  | .replace index a => do Edit.replace index a; return none
  | .replaceRange first last replacement => do
    Edit.replaceRange first last replacement
    return none

def Misplaced (r : Roll) : Change → Prop
  | .read index | .set index _ | .erase index | .discard index | .replace index _ =>
    r.values.length ≤ index
  | .discardRange first last => ¬ (first ≤ last ∧ last ≤ r.values.length)
  | .replaceRange first last replacement =>
    ¬ (first ≤ last ∧ last ≤ r.values.length) ∨ replacement.length ≠ last - first

def answer (r : Roll) : Change → Option Number
  | .read index => r.values[index]?
  | _ => none

instance (r : Roll) : (c : Change) → Decidable (c.Misplaced r)
  | .read index | .set index _ | .erase index | .discard index | .replace index _ =>
    inferInstanceAs (Decidable (r.values.length ≤ index))
  | .discardRange first last =>
    inferInstanceAs (Decidable (¬ (first ≤ last ∧ last ≤ r.values.length)))
  | .replaceRange first last replacement =>
    inferInstanceAs (Decidable (¬ (first ≤ last ∧ last ≤ r.values.length) ∨
      replacement.length ≠ last - first))

def removed (r : Roll) : Change → List Number
  | .read _ => []
  | .set index _ | .erase index | .discard index | .replace index _ => r.values[index]?.toList
  | .discardRange first last | .replaceRange first last _ =>
    (r.values.drop first).take (last - first)

def placed : Change → List Number
  | .set _ a | .replace _ a => [a]
  | .replaceRange _ _ replacement => replacement
  | _ => []

def records : Change → Bool
  | .discard _ | .discardRange _ _ | .replace _ _ | .replaceRange _ _ _ => true
  | _ => false

def puts : Change → Bool
  | .set _ _ | .replace _ _ | .replaceRange _ _ _ => true
  | _ => false

/-- What a change that was made answers and leaves of a roll. -/
structure Accounts (c : Change) (r : Roll) (answer : Option Number) (s : Roll) : Prop where
  answer : answer = c.answer r
  die : s.die = r.die
  suspended : s.suspended = r.suspended
  discards : s.discards = r.discards ++ if c.records then c.removed r else []
  values : (s.values ++ c.removed r).Perm (r.values ++ c.placed)
  balance : c.records = true → (s.values ++ s.discards).Perm (r.values ++ r.discards ++ c.placed)

def first : Change → Nat
  | .read index | .set index _ | .erase index | .discard index | .replace index _ => index
  | .discardRange first _ | .replaceRange first _ _ => first

def last : Change → Nat
  | .read index => index
  | .set index _ | .erase index | .discard index | .replace index _ => index + 1
  | .discardRange _ last | .replaceRange _ last _ => last

def spliced (c : Change) (r : Roll) : Roll := { r with
  values := r.values.take c.first ++ c.placed ++ r.values.drop c.last
  discards := if c.records then r.discards ++ r.range c.first c.last else r.discards }

def outcome (c : Change) (r : Roll) : Roll := if c.puts then (c.spliced r).settle else c.spliced r

variable {c : Change} {r : Roll}

theorem range_of_not_misplaced (h : ¬ c.Misplaced r) :
    c.first ≤ c.last ∧ c.last ≤ r.values.length := by
  cases c with
  | discardRange first last => exact not_not.mp h
  | replaceRange first last replacement => exact not_not.mp (not_or.mp h).1
  | _ =>
    simp only [Misplaced, first, last] at h ⊢
    omega

theorem edit_of_misplaced (h : c.Misplaced r) :
    ∃ fault, fault.kind = .wrongValue ∧ c.edit r = (.error fault, r) := by
  cases c with
  | read index =>
    refine ⟨.indexOutside index, rfl, ?_⟩
    have hnone : r.values[index]? = none := List.getElem?_eq_none h
    simp only [edit, Rolling.bind_apply, Edit.value, hnone]
  | discardRange first last =>
    refine ⟨.rangeOutside first last, rfl, ?_⟩
    simp only [edit, Edit.discardRange, Edit.bind_assoc, Edit.checkRange_bind]
    exact if_neg h
  | replaceRange first last replacement =>
    simp only [edit, Edit.replaceRange, Edit.bind_assoc, Edit.checkRange_bind, Edit.check_bind]
    by_cases hrange : first ≤ last ∧ last ≤ r.values.length
    · have hlength : last - first ≠ replacement.length :=
        (h.resolve_left (not_not.mpr hrange)).symm
      refine ⟨.lengthsDiffer, rfl, ?_⟩
      rw [if_pos hrange, if_neg (by simpa using hlength)]
    · exact ⟨.rangeOutside first last, rfl, if_neg hrange⟩
  | set index | erase index | discard index | replace index =>
    refine ⟨.indexOutside index, rfl, ?_⟩
    simp only [edit, Edit.set, Edit.erase, Edit.discard, Edit.replace, Edit.bind_assoc,
      Edit.checkIndex_bind]
    exact if_neg (Nat.not_lt.mpr h)

theorem edit_of_not_misplaced (h : ¬ c.Misplaced r) :
    c.edit r = (.ok (c.answer r), c.outcome r) := by
  cases c with
  | read index =>
    have hindex : index < r.values.length := Nat.not_le.mp h
    have hsame : (read index).outcome r = r := by
      simp [outcome, puts, spliced, placed, records, first, last]
    simp [edit, Rolling.bind_apply, Edit.value, answer, hindex, hsame]
  | discardRange first last =>
    simp only [edit, Edit.discardRange, Edit.bind_assoc, Edit.checkRange_bind]
    exact if_pos (not_not.mp h)
  | replaceRange first last replacement =>
    obtain ⟨hrange, hlength⟩ := not_or.mp h
    have hrange := not_not.mp hrange
    have hlast : first + replacement.length = last := by omega
    simp only [edit, Edit.replaceRange, Edit.bind_assoc, Edit.checkRange_bind,
      Edit.check_bind, hlast]
    rw [if_pos hrange, if_pos (by simpa using (not_ne_iff.mp hlength).symm)]
    rfl
  | set index | erase index | discard index | replace index =>
    simp only [edit, Edit.set, Edit.erase, Edit.discard, Edit.replace, Edit.bind_assoc,
      Edit.checkIndex_bind]
    exact if_pos (Nat.not_le.mp h)

theorem range_eq_removed (h : ¬ c.Misplaced r) : r.range c.first c.last = c.removed r := by
  rw [range, List.drop_take]
  cases c with
  | read index => simp [first, last, removed]
  | discardRange first last | replaceRange first last => rfl
  | set index | erase index | discard index | replace index =>
    simp [first, last, removed, List.take_one]

theorem take_range_drop {first last : Nat} (h : first ≤ last) :
    r.values.take first ++ r.range first last ++ r.values.drop last = r.values := by
  have htake : r.values.take first = (r.values.take last).take first := by
    rw [List.take_take, Nat.min_eq_left h]
  rw [htake, range, List.take_append_drop, List.take_append_drop]

@[simp] theorem outcome_die : (c.outcome r).die = r.die := by
  rw [outcome]
  split
  · exact settle_die _
  · rfl

@[simp] theorem outcome_suspended : (c.outcome r).suspended = r.suspended := by
  rw [outcome]
  split
  · exact settle_suspended _
  · rfl

theorem outcome_discards : (c.outcome r).discards = (c.spliced r).discards := by
  rw [outcome]
  split
  · exact settle_discards _
  · rfl

theorem outcome_perm : (c.outcome r).values.Perm (c.spliced r).values := by
  rw [outcome]
  split
  · exact settle_perm _
  · exact .refl _

theorem exchange_perm {α : Type} (front back removed placed : List α) :
    (front ++ placed ++ back ++ removed).Perm (front ++ removed ++ back ++ placed) := by
  simp only [List.append_assoc]
  apply List.Perm.append_left
  rw [← List.append_assoc removed]
  exact List.perm_append_comm.trans (List.perm_append_comm.append_right placed)

theorem spliced_perm (h : ¬ c.Misplaced r) :
    ((c.spliced r).values ++ c.removed r).Perm (r.values ++ c.placed) := by
  have hvalues : r.values.take c.first ++ c.removed r ++ r.values.drop c.last = r.values := by
    rw [← range_eq_removed h]
    exact take_range_drop (range_of_not_misplaced h).1
  have hperm := exchange_perm (r.values.take c.first) (r.values.drop c.last) (c.removed r) c.placed
  rwa [hvalues] at hperm

theorem outcome_accounts (h : ¬ c.Misplaced r) : c.Accounts r (c.answer r) (c.outcome r) := by
  have hvalues : ((c.outcome r).values ++ c.removed r).Perm (r.values ++ c.placed) :=
    (outcome_perm.append_right _).trans (spliced_perm h)
  have hdiscards : (c.outcome r).discards =
      r.discards ++ if c.records then c.removed r else [] := by
    rw [outcome_discards, ← range_eq_removed h, spliced]
    split <;> simp
  refine ⟨rfl, outcome_die, outcome_suspended, hdiscards, hvalues, fun hrecords => ?_⟩
  rw [hdiscards, if_pos hrecords]
  have hcomm (front back moved : List Number) :
      (front ++ back ++ moved).Perm (front ++ moved ++ back) := by
    simpa using exchange_perm front [] moved back
  rw [← List.append_assoc]
  apply (hcomm _ _ _).trans
  exact (hvalues.append_right r.discards).trans (hcomm _ _ _)

/-- A change is refused exactly when it names no place of the roll, or brings another number of
values than it takes away. The roll is then as it was; after every other change each value is
accounted for. -/
theorem edit_atomic (c : Change) (r : Roll) :
    (c.Misplaced r ∧ ∃ fault, fault.kind = .wrongValue ∧ c.edit r = (.error fault, r)) ∨
      (¬ c.Misplaced r ∧ ∃ answer s, c.edit r = (.ok answer, s) ∧ c.Accounts r answer s) := by
  by_cases h : c.Misplaced r
  · exact .inl ⟨h, edit_of_misplaced h⟩
  · exact .inr ⟨h, c.answer r, c.outcome r, edit_of_not_misplaced h, outcome_accounts h⟩

end Change

end DiceFormula.Roll
