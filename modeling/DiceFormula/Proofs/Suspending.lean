import DiceFormula.Proofs.Conservation
import DiceFormula.Proofs.Editing

/-! Suspensions of sorting that end in the reverse of the order in which they were taken. Whatever
was done to a roll meanwhile, and whether or not it was refused, the end of the last one finds the
values in order. -/
namespace DiceFormula.Roll

theorem settle_ascending {r : Roll} (h : ∀ a ∈ r.values, a.isInteger = true)
    (hsuspended : r.suspended = false) : r.settle.values.Pairwise fun a b => a.le b = true := by
  rw [settle, hsuspended]
  exact sort_ascending h

theorem settle_integers {r : Roll} (h : ∀ a ∈ r.values, a.isInteger = true) :
    ∀ a ∈ r.settle.values, a.isInteger = true :=
  fun a ha => h a ((settle_perm r).mem_iff.mp ha)

theorem settle_of_suspended {r : Roll} (h : r.suspended = true) : r.settle = r := if_pos h

namespace Change
variable {c : Change} {r : Roll}

theorem edit_snd : (c.edit r).2 = if c.Misplaced r then r else c.outcome r := by
  split
  · rename_i h
    obtain ⟨fault, -, hedit⟩ := edit_of_misplaced h
    rw [hedit]
  · rename_i h
    rw [edit_of_not_misplaced h]

@[simp] theorem edit_suspended : (c.edit r).2.suspended = r.suspended := by
  rw [edit_snd]
  split
  · rfl
  · exact outcome_suspended

theorem spliced_integers (h : ∀ a ∈ r.values, a.isInteger = true)
    (hplaced : ∀ a ∈ c.placed, a.isInteger = true) :
    ∀ a ∈ (c.spliced r).values, a.isInteger = true := by
  intro a ha
  obtain (ha | ha) | ha := (List.mem_append.mp ha).imp_left List.mem_append.mp
  · exact h a (List.mem_of_mem_take ha)
  · exact hplaced a ha
  · exact h a (List.mem_of_mem_drop ha)

theorem edit_integers (h : ∀ a ∈ r.values, a.isInteger = true)
    (hplaced : ∀ a ∈ c.placed, a.isInteger = true) :
    ∀ a ∈ (c.edit r).2.values, a.isInteger = true := by
  rw [edit_snd]
  split
  · exact h
  · exact fun a ha => spliced_integers h hplaced a (outcome_perm.mem_iff.mp ha)

theorem edit_ascending (h : ∀ a ∈ r.values, a.isInteger = true)
    (hplaced : ∀ a ∈ c.placed, a.isInteger = true) (hsuspended : r.suspended = false)
    (hascending : r.values.Pairwise fun a b => a.le b = true) :
    (c.edit r).2.values.Pairwise fun a b => a.le b = true := by
  rw [edit_snd]
  split
  · exact hascending
  · rename_i hplace
    rw [outcome]
    split
    · exact settle_ascending (spliced_integers h hplaced) hsuspended
    · rename_i hputs
      have hnone : c.placed = [] := by
        cases c with
        | set | replace | replaceRange => exact absurd rfl hputs
        | _ => rfl
      have hsublist : (c.spliced r).values.Sublist r.values := by
        rw [spliced, hnone, List.append_nil]
        conv_rhs => rw [← take_range_drop (range_of_not_misplaced hplace).1]
        exact (List.sublist_append_left _ _).append_right _
      exact hascending.sublist hsublist

theorem placed_length (hplace : ¬ c.Misplaced r) (hputs : c.puts = true) :
    c.placed.length = c.last - c.first := by
  cases c with
  | replaceRange first last replacement => exact not_ne_iff.mp (not_or.mp hplace).2
  | set index | replace index => exact (Nat.add_sub_cancel_left index 1).symm
  | _ => cases hputs

theorem edit_getElem? (hsuspended : r.suspended = true) (hputs : c.puts = true) (i : Nat) :
    (c.edit r).2.values[i]? =
      if ¬ c.Misplaced r ∧ c.first ≤ i ∧ i < c.last then c.placed[i - c.first]?
      else r.values[i]? := by
  rw [edit_snd]
  split
  · rename_i hplace
    rw [if_neg fun h => h.1 hplace]
  · rename_i hplace
    obtain ⟨hfirst, hlast⟩ := range_of_not_misplaced hplace
    have hlength := placed_length hplace hputs
    have hvalues : (c.outcome r).values =
        r.values.take c.first ++ (c.placed ++ r.values.drop c.last) := by
      have hspliced : (c.spliced r).suspended = true := hsuspended
      rw [outcome, if_pos hputs, settle_of_suspended hspliced]
      exact List.append_assoc _ _ _
    have hfront : (r.values.take c.first).length = c.first := List.length_take_of_le (by omega)
    rw [hvalues]
    obtain hbefore | hfrom := Nat.lt_or_ge i c.first
    · rw [if_neg fun h => Nat.not_le.mpr hbefore h.2.1, List.getElem?_append_left (by omega),
        List.getElem?_take_of_lt hbefore]
    · rw [List.getElem?_append_right (by omega), hfront]
      obtain hinside | hafter := Nat.lt_or_ge i c.last
      · rw [if_pos ⟨hplace, hfrom, hinside⟩, List.getElem?_append_left (by omega)]
      · rw [if_neg fun h => Nat.not_lt.mpr hafter h.2.2, List.getElem?_append_right (by omega),
          List.getElem?_drop]
        congr 1
        omega

end Change

/-- A roll under suspensions, with what each of them found of its sorting, the latest first. -/
structure Guarded where
  roll : Roll
  before : List Bool

inductive Event
  | change (c : Change)
  | setValues (values : List Number)
  | addDiscards (removed : List Number)
  | suspend
  | resume

namespace Event

def brought : Event → List Number
  | change c => c.placed
  | setValues values => values
  | addDiscards removed => removed
  | suspend | resume => []

def apply (w : Guarded) : Event → Guarded
  | change c => { w with roll := (c.edit w.roll).2 }
  | setValues values => { w with roll := w.roll.setValues values }
  | addDiscards removed => { w with roll := w.roll.addDiscards removed }
  | suspend => ⟨w.roll.suspend.1, w.roll.suspend.2 :: w.before⟩
  | resume =>
    match w.before with
    | [] => w
    | found :: before => ⟨w.roll.resume found, before⟩

end Event

namespace Guarded

def start (values : List Number) (die : Die) : Guarded := ⟨ofValues values die, []⟩

def after (w : Guarded) (events : List Event) : Guarded := events.foldl Event.apply w

structure Sound (w : Guarded) : Prop where
  integers : ∀ a ∈ w.roll.values, a.isInteger = true
  found : w.roll.suspended :: w.before = List.replicate w.before.length true ++ [false]
  ascending : w.roll.suspended = false → w.roll.values.Pairwise fun a b => a.le b = true

theorem start_sound {values : List Number} (die : Die) (h : ∀ a ∈ values, a.isInteger = true) :
    (start values die).Sound :=
  ⟨fun a ha => h a ((List.mergeSort_perm _ _).mem_iff.mp ha), rfl, fun _ => sort_ascending h⟩

theorem Sound.apply {w : Guarded} (h : w.Sound) (e : Event)
    (hbrought : ∀ a ∈ e.brought, a.isInteger = true) : (e.apply w).Sound := by
  obtain ⟨r, before⟩ := w
  cases e with
  | change c =>
    refine ⟨Change.edit_integers h.integers hbrought, ?_, fun hsuspended => ?_⟩
    · rw [Event.apply, Change.edit_suspended]
      exact h.found
    · have hsuspended : r.suspended = false := Change.edit_suspended.symm.trans hsuspended
      exact Change.edit_ascending h.integers hbrought hsuspended (h.ascending hsuspended)
  | setValues values =>
    refine ⟨settle_integers hbrought, ?_, fun hsuspended => ?_⟩
    · rw [Event.apply, setValues, settle_suspended]
      exact h.found
    · exact settle_ascending hbrought ((settle_suspended _).symm.trans hsuspended)
  | addDiscards removed => exact ⟨h.integers, h.found, h.ascending⟩
  | suspend =>
    refine ⟨h.integers, ?_, nofun⟩
    exact congrArg (true :: ·) h.found
  | resume =>
    cases before with
    | nil => exact h
    | cons found before =>
      have hfound : found :: before = List.replicate before.length true ++ [false] :=
        (List.cons.inj h.found).2
      refine ⟨settle_integers h.integers, ?_, fun hsuspended => ?_⟩
      · exact (congrArg (· :: before) (settle_suspended _)).trans hfound
      · exact settle_ascending h.integers ((settle_suspended _).symm.trans hsuspended)

theorem Sound.after {w : Guarded} (h : w.Sound) (events : List Event)
    (hbrought : ∀ e ∈ events, ∀ a ∈ e.brought, a.isInteger = true) : (w.after events).Sound := by
  induction events generalizing w with
  | nil => exact h
  | cons e events ih =>
    exact ih (h.apply e (hbrought e List.mem_cons_self)) fun e' he' =>
      hbrought e' (List.mem_cons_of_mem e he')

theorem Sound.suspended {w : Guarded} (h : w.Sound) : w.roll.suspended = !w.before.isEmpty := by
  obtain ⟨r, before⟩ := w
  cases before with
  | nil => exact (List.cons.inj h.found).1
  | cons found before => exact (List.cons.inj h.found).1

/-- In every history of integers, a roll is in ascending order whenever no suspension is live; while
one is live, changes that put values in place of others move nothing else. -/
theorem after_ordered (values : List Number) (die : Die) (events : List Event)
    (hvalues : ∀ a ∈ values, a.isInteger = true)
    (hbrought : ∀ e ∈ events, ∀ a ∈ e.brought, a.isInteger = true) :
    let w := (start values die).after events
    (w.before = [] → w.roll.suspended = false ∧ w.roll.values.Pairwise fun a b => a.le b = true) ∧
      (w.before ≠ [] → w.roll.suspended = true ∧ ∀ c : Change, c.puts = true → ∀ i,
        (c.edit w.roll).2.values[i]? =
          if ¬ c.Misplaced w.roll ∧ c.first ≤ i ∧ i < c.last then c.placed[i - c.first]?
          else w.roll.values[i]?) := by
  intro w
  have hsound : w.Sound := (start_sound die hvalues).after events hbrought
  refine ⟨fun hnone => ?_, fun hlive => ?_⟩
  · have hsuspended : w.roll.suspended = false := by rw [hsound.suspended, hnone]; rfl
    exact ⟨hsuspended, hsound.ascending hsuspended⟩
  · have hsuspended : w.roll.suspended = true := by
      rw [hsound.suspended, List.isEmpty_eq_false_iff.mpr hlive]
      rfl
    exact ⟨hsuspended, fun c hputs i => Change.edit_getElem? hsuspended hputs i⟩

theorem after_ordered_nested :
    let events : List Event := [.suspend, .change (.set 0 (.int 9)), .suspend,
      .change (.replaceRange 1 3 [.int 7]), .change (.replace 1 (.int 7)), .resume]
    let w := (start [.int 3, .int 2, .int 1] (.sides 6)).after events
    w.before = [false] ∧ w.roll.suspended = true ∧
      ((Change.set 2 (.int 0)).edit w.roll).2.values[1]? = w.roll.values[1]? ∧
      (w.after [.resume]).roll.suspended = false ∧
      (w.after [.resume]).roll.values.Pairwise fun a b => a.le b = true := by
  intro events w
  have hlive := (after_ordered [.int 3, .int 2, .int 1] (.sides 6) events (by decide) (by decide)).2
    (by decide)
  have hended :=
    (after_ordered [.int 3, .int 2, .int 1] (.sides 6) (events ++ [.resume]) (by decide)
    (by decide)).1 (by decide)
  exact ⟨by decide, hlive.1,
    (hlive.2 (.set 2 (.int 0)) rfl 1).trans (if_neg fun h => absurd h.2.1 (by decide)), hended⟩

end Guarded

end DiceFormula.Roll
