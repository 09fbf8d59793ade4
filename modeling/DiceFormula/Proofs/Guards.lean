import DiceFormula.Chance.Script
import DiceFormula.Proofs.Requests
import DiceFormula.Proofs.Reshaping

/-! Guards that nothing trips over. However a tree came about, its operators find their operands,
every place of a roll that they touch is there, and the source is asked for nothing but integers
from one to some count of sides and one of some places. -/
namespace DiceFormula

variable {σ : Type}

namespace Tree

theorem isSome_run {source : Source σ} {t u : Tree} {s s' : σ} {v : Option Value}
    (h : t.run source s = (.ok v, u, s')) (hne : t.isEmpty = false) : v.isSome = true := by
  obtain ⟨hsettled, rfl⟩ := run_settled h
  have hbare : (t.run source s).2.1.bare = t.bare := bare_run t s
  rw [h] at hbare
  exact hsettled.known_isSome ((isEmpty_of_bare_eq hbare).trans hne)

theorem isEmpty_of_takesLeft {op : Operator} {left right : Tree} (h : fits op left right = true)
    (htakes : op.takesLeft = true) : left.isEmpty = false := by
  simp only [fits, htakes, Bool.and_eq_true, beq_iff_eq] at h
  exact (Bool.not_eq_true' _).mp h.1.symm

theorem isEmpty_of_takesRight {op : Operator} {left right : Tree} (h : fits op left right = true)
    (htakes : op.takesRight = true) : right.isEmpty = false := by
  simp only [fits, htakes, Bool.and_eq_true, beq_iff_eq] at h
  exact (Bool.not_eq_true' _).mp h.2.symm

theorem run_heeded (source : Source σ) {t : Tree} (h : t.WellFormed) (s : σ) (notes : List Note) :
    ∃ added, t.run source.noted (s, notes) =
      ((t.run source s).1, (t.run source s).2.1, (t.run source s).2.2, added ++ notes) ∧
      Heeded added (t.run source s).1 := by
  induction t generalizing s notes with
  | empty => exact ⟨[], rfl, (plain_ok _).heeded⟩
  | leaf content known => exact ⟨[], rfl, (plain_ok _).heeded⟩
  | node op left right known ihLeft ihRight =>
    obtain ⟨hfits, hleft, hright⟩ := h
    obtain ⟨added, hnoted, hadded⟩ := ihLeft hleft s notes
    rw [run, run, hnoted]
    rcases hl : left.run source s with ⟨fault | a, left', t⟩
    · rw [hl] at hadded
      exact ⟨added, rfl, hadded.error⟩
    rw [hl] at hadded
    obtain ⟨added', hnoted', hadded'⟩ := ihRight hright t (added ++ notes)
    dsimp only
    rw [hnoted']
    rcases hr : right.run source t with ⟨fault | b, right', u⟩
    · rw [hr] at hadded'
      exact ⟨added' ++ added, by rw [List.append_assoc], (hadded.append hadded').error⟩
    rw [hr] at hadded'
    -- An operand that the operator takes is no empty tree, and any other tree has a value.
    have ha : op.takesLeft = true → a.isSome = true := fun htakes =>
      isSome_run hl (isEmpty_of_takesLeft hfits htakes)
    have hb : op.takesRight = true → b.isSome = true := fun htakes =>
      isSome_run hr (isEmpty_of_takesRight hfits htakes)
    obtain ⟨added'', hnoted'', hadded''⟩ :=
      Operator.careful_apply ha hb u (added' ++ (added ++ notes))
    have hall := (hadded.append hadded').append hadded''
    dsimp only
    rw [hnoted'']
    rcases hv : op.apply source a b u with ⟨fault | v, w⟩
    · rw [hv] at hall
      exact ⟨added'' ++ (added' ++ added), by simp only [List.append_assoc], hall.error⟩
    · exact ⟨added'' ++ (added' ++ added), by simp only [List.append_assoc], hall.sane,
        fun _ h => by cases h⟩

theorem plain_totalOf (v : Option Value) : Plain (totalOf v) := by
  cases v with
  | none => exact plain_ok _
  | some v => exact v.plain_total

theorem evaluate_heeded (source : Source σ) {t : Tree} (h : t.WellFormed) (s : σ) :
    ∃ notes, t.evaluate source.noted (s, []) =
      ((t.evaluate source s).1, (t.evaluate source s).2.1, (t.evaluate source s).2.2, notes) ∧
      (∀ note ∈ notes, note.request.Sane) ∧
      ∀ fault, (t.evaluate source s).1 = .error (.evaluation fault) → fault.isGuard = true →
        ∃ note ∈ notes, note.refusal = some fault := by
  obtain ⟨added, hnoted, hadded⟩ := run_heeded source h s []
  rw [List.append_nil] at hnoted
  unfold evaluate
  rw [hnoted]
  rcases hrun : t.run source s with ⟨fault | v, u, s'⟩
  · rw [hrun] at hadded
    refine ⟨added, rfl, hadded.sane, fun fault' hfault => ?_⟩
    cases hfault
    exact hadded.refused fault rfl
  · cases htotal : totalOf v with
    | ok a =>
      exact ⟨added, by simp [htotal], hadded.sane, fun fault hfault => by simp [htotal] at hfault⟩
    | error fault =>
      refine ⟨added, by simp [htotal], hadded.sane, fun fault' hfault hguard => ?_⟩
      obtain rfl : fault = fault' := by simpa [htotal] using hfault
      rw [plain_totalOf v fault htotal] at hguard
      cases hguard

end Tree

/-- However a tree was built, copied, joined and rewritten: each of its operators has exactly the
operands it takes, a copy and a mode find nothing to object to, and an evaluation that checks every
place of a roll comes to the same as one that does not, asks the source for nothing senseless and
ends with a guard's fault only if the source did. -/
theorem Shelf.after_guarded (steps : List Shelf.Step) (name : Text) (t : Tree)
    (ht : (Shelf.after [] steps).find? name = some t) (source : Source σ) (s : σ) :
    t.WellFormed ∧ t.copy = .ok t ∧ (∀ mode, t.rewritten mode = .ok (t.inMode mode)) ∧
      ∃ notes, t.evaluateInPlace source.noted (s, []) =
        ((t.evaluate source s).1, (t.evaluate source s).2.1, (t.evaluate source s).2.2, notes) ∧
        (∀ note ∈ notes, note.request.Sane) ∧
        ∀ fault, (t.evaluate source s).1 = .error (.evaluation fault) → fault.isGuard = true →
          ∃ note ∈ notes, note.refusal = some fault := by
  have hwf : t.WellFormed := Shelf.wellFormed_nil.after steps name t ht
  refine ⟨hwf, Tree.copy_eq hwf, fun mode => Tree.rewritten_eq mode t, ?_⟩
  rw [Tree.evaluateInPlace_eq]
  exact Tree.evaluate_heeded source hwf s

/-- Two trees are parsed, one is rewritten, both are joined, and the operator of the whole is set.
The one die that is still thrown is asked for once. -/
theorem Shelf.after_guarded_joined :
    let x := ascii ['x']
    let y := ascii ['y']
    let z := ascii ['z']
    let shelf := Shelf.after []
      [.parse x (ascii ['1', 'd', '2', '0']), .parse y (ascii ['1', 'd', '6']),
        .rewrite y .average, .combine z .add x y, .setOperator z [] .subtract]
    let s : Script := ⟨[13], none, [], 0⟩
    ∃ t, shelf.find? z = some t ∧ t.WellFormed ∧
      (t.evaluate (Script.source 0) s).1 = .ok (.real (.finite (19 / 2))) ∧
      (t.evaluateInPlace (Script.source 0).noted (s, [])).2.2.2 = [⟨.uniform 1 20, none⟩] ∧
      (Request.uniform 1 20).Sane := by
  intro x y z shelf s
  let t : Tree := .node .subtract
    (.node (.dice .plain) (.ofNumber (.int 1)) (.ofNumber (.int 20)) none)
    (.node (.dice .average) (.ofNumber (.int 1)) (.ofNumber (.int 6)) none) none
  have ht : shelf.find? z = some t := by decide +kernel
  obtain ⟨hwf, -, -, notes, hrun, hsane, -⟩ := after_guarded _ z t ht (Script.source 0) s
  have hnotes : notes = [⟨.uniform 1 20, none⟩] := by
    have hlast : (t.evaluateInPlace (Script.source 0).noted (s, [])).2.2.2 = notes := by rw [hrun]
    rw [← hlast]
    decide +kernel
  refine ⟨t, ht, hwf, by decide +kernel, ?_, ?_⟩
  · rw [hrun, hnotes]
  · exact hsane ⟨.uniform 1 20, none⟩ (by rw [hnotes]; exact List.mem_singleton_self _)

end DiceFormula
