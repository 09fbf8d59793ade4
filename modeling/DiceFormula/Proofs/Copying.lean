import DiceFormula.Proofs.Suspending

/-! Copies of rolls. A copy takes over whether sorting is suspended, but none of the suspensions
that would end this. So a copy that was taken while one was live is never sorted again, and neither
are the copies of it. -/
namespace DiceFormula.Roll.Guarded

def copy (w : Guarded) : Guarded := ⟨w.roll, []⟩

/-- Rolls of integers that were made, changed and copied, and whether one of them was copied on the
way while a suspension of it was live. -/
inductive Descends : Bool → Guarded → Prop
  | made (values : List Number) (die : Die) (h : ∀ a ∈ values, a.isInteger = true) :
      Descends false (start values die)
  | event {marred : Bool} {w : Guarded} (e : Event) (h : Descends marred w)
      (hbrought : ∀ a ∈ e.brought, a.isInteger = true) : Descends marred (e.apply w)
  | copied {marred : Bool} {w : Guarded} (h : Descends marred w) :
      Descends (marred || !w.before.isEmpty) w.copy

/-- Sorting is suspended, and each suspension found it so. None of them will bring it back. -/
structure Frozen (w : Guarded) : Prop where
  suspended : w.roll.suspended = true
  found : ∀ found ∈ w.before, found = true

variable {w : Guarded} {marred : Bool}

theorem Frozen.apply (h : w.Frozen) (e : Event) : (e.apply w).Frozen := by
  obtain ⟨r, before⟩ := w
  cases e with
  | change c => exact ⟨Change.edit_suspended.trans h.suspended, h.found⟩
  | setValues values => exact ⟨(settle_suspended _).trans h.suspended, h.found⟩
  | addDiscards removed => exact ⟨h.suspended, h.found⟩
  | suspend => exact ⟨rfl, List.forall_mem_cons.mpr ⟨h.suspended, h.found⟩⟩
  | resume =>
    cases before with
    | nil => exact h
    | cons found before =>
      obtain ⟨hfound, hrest⟩ := List.forall_mem_cons.mp h.found
      exact ⟨(settle_suspended _).trans hfound, hrest⟩

theorem Frozen.after (h : w.Frozen) (events : List Event) : (w.after events).Frozen := by
  induction events generalizing w with
  | nil => exact h
  | cons e events ih => exact ih (h.apply e)

theorem Frozen.copy (h : w.Frozen) : w.copy.Frozen := ⟨h.suspended, nofun⟩

theorem Sound.copy (h : w.Sound) (hnone : w.before = []) : w.copy.Sound := by
  have hsuspended : w.roll.suspended = false := by
    rw [h.suspended, hnone]
    rfl
  exact ⟨h.integers, congrArg ([·]) hsuspended, h.ascending⟩

theorem Sound.frozen_copy (h : w.Sound) (hlive : w.before ≠ []) : w.copy.Frozen := by
  have hsuspended : w.roll.suspended = true := by
    rw [h.suspended, List.isEmpty_eq_false_iff.mpr hlive]
    rfl
  exact ⟨hsuspended, nofun⟩

theorem Descends.sound_or_frozen (h : Descends marred w) :
    (marred = false → w.Sound) ∧ (marred = true → w.Frozen) := by
  induction h with
  | made values die hvalues => exact ⟨fun _ => start_sound die hvalues, nofun⟩
  | event e _ hbrought ih =>
    exact ⟨fun hmarred => (ih.1 hmarred).apply e hbrought, fun hmarred => (ih.2 hmarred).apply e⟩
  | @copied marred w _ ih =>
    cases marred with
    | true => exact ⟨nofun, fun _ => (ih.2 rfl).copy⟩
    | false =>
      rw [Bool.false_or]
      refine ⟨fun hnone => (ih.1 rfl).copy ?_, fun hlive => (ih.1 rfl).frozen_copy ?_⟩
      · simpa using hnone
      · simpa using hlive

theorem Descends.sound_copy (h : Descends marred w) (hwhole : marred = false ∧ w.before = []) :
    w.copy.Sound :=
  (h.sound_or_frozen.1 hwhole.1).copy hwhole.2

theorem Descends.frozen_copy (h : Descends marred w) (hmarred : ¬(marred = false ∧ w.before = [])) :
    w.copy.Frozen := by
  refine h.copied.sound_or_frozen.2 ?_
  rw [Bool.or_eq_true, Bool.not_eq_true', List.isEmpty_eq_false_iff]
  cases marred with
  | true => exact .inl rfl
  | false => exact .inr fun hnone => hmarred ⟨rfl, hnone⟩

/-- A copy is in ascending order whenever no suspension of it is live, whatever is done to it,
exactly when neither the roll nor one that it descends from was under a suspension when it was
copied. Otherwise the sorting of the copy stays suspended for good. -/
theorem copy_ascending_iff (h : Descends marred w) :
    ((∀ events : List Event, (∀ e ∈ events, ∀ a ∈ e.brought, a.isInteger = true) →
        (w.copy.after events).before = [] →
        (w.copy.after events).roll.values.Pairwise fun a b => a.le b = true) ↔
      marred = false ∧ w.before = []) ∧
    (¬(marred = false ∧ w.before = []) →
      ∀ events, (w.copy.after events).roll.suspended = true) := by
  refine ⟨⟨fun hascending => ?_, fun hwhole events hbrought hnone => ?_⟩, fun hmarred events => ?_⟩
  · by_contra hmarred
    have hsuspended : ({ w.roll with values := [.int 1, .int 0] } : Roll).suspended = true :=
      (h.frozen_copy hmarred).suspended
    have hvalues : (w.copy.after [.setValues [.int 1, .int 0]]).roll.values = [.int 1, .int 0] :=
      congrArg Roll.values (settle_of_suspended hsuspended)
    have hpair := hascending [.setValues [.int 1, .int 0]] (by decide) rfl
    rw [hvalues] at hpair
    exact absurd hpair (by decide)
  · have hsound := (h.sound_copy hwhole).after events hbrought
    refine hsound.ascending ?_
    rw [hsound.suspended, hnone]
    rfl
  · exact ((h.frozen_copy hmarred).after events).suspended

theorem copy_ascending_iff_ended :
    let w := ((start [.int 4] (.sides 6)).after [.suspend, .change (.set 0 (.int 2)), .resume]).copy
    let events : List Event :=
      [.setValues [.int 5, .int 1], .suspend, .suspend, .change (.set 0 (.int 6)), .resume,
      .resume]
    (w.copy.after events).before = [] ∧
      (w.copy.after events).roll.values.Pairwise fun a b => a.le b = true := by
  intro w events
  have hdescends : Descends false w :=
    .copied (.event .resume
      (.event (.change (.set 0 (.int 2))) (.event .suspend (.made _ _ (by decide)) (by decide))
      (by decide)) (by decide))
  exact ⟨rfl, (copy_ascending_iff hdescends).1.mpr ⟨rfl, rfl⟩ events (by decide) rfl⟩

/-- No suspension of the copy was ever taken, and two values that it is given stay as they are. -/
theorem copy_unordered :
    let w := (start [.int 1] (.sides 6)).after [.suspend]
    let v := w.copy.after [.setValues [.int 3, .int 2]]
    Descends false w ∧ v.before = [] ∧ v.roll.values = [.int 3, .int 2] ∧
      ¬v.roll.values.Pairwise fun a b => a.le b = true := by
  intro w v
  exact ⟨.event .suspend (.made _ _ (by decide)) (by decide), rfl, by decide, by decide⟩

end DiceFormula.Roll.Guarded
