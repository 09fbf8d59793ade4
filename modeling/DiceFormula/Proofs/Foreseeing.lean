import DiceFormula.Proofs.Conservation
import DiceFormula.Proofs.Inventory
import DiceFormula.Proofs.Requests
import DiceFormula.Proofs.Reshaping

/-! Evaluations that leave nothing to chance. Only dice thrown at random or for a critical hit ask
the source, and rerolls. A tree without them comes to the same end with every source, be it a total
or a fault, keeps the same values in its nodes, and makes no request. The maximum mode takes all
dice from chance, and the average mode all but those of critical hits. -/
namespace DiceFormula

variable {α β : Type}

def Foreseen (x : (σ : Type) → Source σ → Rolling σ Fault α) : Prop :=
  ∃ result : Except Fault α, ∀ (σ : Type) (source : Source σ), x σ source = Rolling.of result

namespace Foreseen

theorem lift (result : Except Fault α) : Foreseen fun _ _ => liftM result :=
  ⟨result, fun _ _ => rfl⟩

theorem pure (a : α) : Foreseen fun _ _ => Pure.pure a := ⟨.ok a, fun _ _ => rfl⟩

variable {x : (σ : Type) → Source σ → Rolling σ Fault α}
  {next : (σ : Type) → Source σ → α → Rolling σ Fault β}

theorem bind (h : Foreseen x) (hnext : ∀ a, Foreseen fun σ source => next σ source a) :
    Foreseen fun σ source => x σ source >>= next σ source := by
  obtain ⟨result, hx⟩ := h
  cases result with
  | error fault =>
    refine ⟨.error fault, fun σ source => ?_⟩
    simp only [hx]
    rfl
  | ok a =>
    obtain ⟨result, hresult⟩ := hnext a
    refine ⟨result, fun σ source => ?_⟩
    simp only [hx, ← hresult σ source]
    rfl

theorem map {f : α → β} (h : Foreseen x) : Foreseen fun σ source => do return f (← x σ source) :=
  h.bind fun a => pure (f a)

end Foreseen

namespace Operator

def needsChance : Operator → Bool
  | .dice .plain | .dice .critical => true
  | op => op.rerolls

variable {op : Operator}

theorem foreseen_throwDice {throw : Throw} (h : (dice throw).needsChance = false)
    (left right : Value) :
    Foreseen fun _ source => throwDice source throw left right := by
  cases throw with
  | plain | critical => cases h
  | average | maximum =>
    exact (Foreseen.lift _).bind fun count => (Foreseen.lift _).bind fun die => Foreseen.lift _

theorem foreseen_act (h : op.needsChance = false) (left right : Value) :
    Foreseen fun _ source => op.act source left right := by
  cases op with
  | dice throw => exact (foreseen_throwDice h left right).map
  | rerollEqual | rerollBeyond => cases h
  | _ => exact (Foreseen.lift _).map

theorem foreseen_apply (h : op.needsChance = false) (left right : Option Value) :
    Foreseen fun _ source => op.apply source left right :=
  (Foreseen.lift _).bind fun a => (Foreseen.lift _).bind fun b => foreseen_act h a b

theorem needsChance_maximum (op : Operator) : (op.inMode .maximum).needsChance = op.rerolls := by
  cases op <;> rfl

theorem needsChance_average (hop : op ≠ .dice .critical) :
    (op.inMode .average).needsChance = op.rerolls := by
  cases op with
  | dice throw =>
    cases throw with
    | critical => exact absurd rfl hop
    | _ => rfl
  | _ => rfl

end Operator

namespace Tree

variable {t : Tree}

@[simp] theorem operators_inMode (mode : Mode) (t : Tree) :
    (t.inMode mode).operators = t.operators.map (·.inMode mode) := by
  induction t with
  | empty | leaf => rfl
  | node op left right known ihleft ihright =>
    simp only [inMode, operators, List.map_cons, List.map_append, ihleft, ihright]

theorem exists_run (h : ∀ op ∈ t.operators, op.needsChance = false) :
    ∃ outcome u, ∀ (σ : Type) (source : Source σ) (s : σ), t.run source s = (outcome, u, s) := by
  induction t with
  | empty => exact ⟨_, _, fun _ _ _ => rfl⟩
  | leaf content known => exact ⟨_, _, fun _ _ _ => rfl⟩
  | node op left right known ihleft ihright =>
    obtain ⟨hop, hoperands⟩ := List.forall_mem_cons.mp h
    obtain ⟨hleft, hright⟩ := List.forall_mem_append.mp hoperands
    obtain ⟨first, left', hfirst⟩ := ihleft hleft
    cases first with
    | error fault =>
      exact ⟨.error fault, .node op left' right known, fun σ source s => by rw [run, hfirst]⟩
    | ok a =>
      obtain ⟨second, right', hsecond⟩ := ihright hright
      cases second with
      | error fault =>
        refine ⟨.error fault, .node op left' right' known, fun σ source s => ?_⟩
        simp only [run, hfirst, hsecond]
      | ok b =>
        obtain ⟨result, hresult⟩ := Operator.foreseen_apply hop a b
        cases result with
        | error fault =>
          refine ⟨.error fault, .node op left' right' known, fun σ source s => ?_⟩
          simp only [run, hfirst, hsecond, hresult, Rolling.of]
        | ok v =>
          refine ⟨.ok (some v), .node op left' right' (some v), fun σ source s => ?_⟩
          simp only [run, hfirst, hsecond, hresult, Rolling.of]

/-- The evaluation comes to this end, and leaves these values in the tree, with every source. None
is asked: one that keeps notes of its requests has no more of them afterwards. -/
def Foretold (t : Tree) (outcome : Except Failure Number) (u : Tree) : Prop :=
  ∀ (σ : Type) (source : Source σ) (s : σ), t.evaluate source s = (outcome, u, s) ∧
    ∀ notes, t.evaluate source.noted (s, notes) = (outcome, u, s, notes)

theorem exists_foretold (h : ∀ op ∈ t.operators, op.needsChance = false) :
    ∃ outcome u, t.Foretold outcome u := by
  obtain ⟨outcome, u, hrun⟩ := exists_run h
  have hevaluate : ∃ total, ∀ (σ : Type) (source : Source σ) (s : σ),
      t.evaluate source s = (total, u, s) := by
    cases outcome with
    | error fault => exact ⟨.error (.evaluation fault), fun σ source s => by rw [evaluate, hrun]⟩
    | ok v =>
      cases htotal : totalOf v with
      | error fault =>
        exact ⟨.error (.evaluation fault), fun σ source s => by simp only [evaluate, hrun, htotal]⟩
      | ok a => exact ⟨.ok a, fun σ source s => by simp only [evaluate, hrun, htotal]⟩
  obtain ⟨total, htotal⟩ := hevaluate
  exact ⟨total, u, fun σ source s =>
    ⟨htotal σ source s, fun notes => htotal _ source.noted (s, notes)⟩⟩

/-- A tree without rerolls, in the maximum mode and, if no dice are thrown for a critical hit, in
the average one. -/
theorem modes_foretold (t : Tree) (hrerolls : ∀ op ∈ t.operators, op.rerolls = false) :
    (∃ highest outcome u, t.rewritten .maximum = .ok highest ∧ highest.Foretold outcome u) ∧
      (.dice .critical ∉ t.operators →
        ∃ average outcome u, t.rewritten .average = .ok average ∧ average.Foretold outcome u) := by
  refine ⟨?_, fun hcritical => ?_⟩
  · have hchance : ∀ op ∈ (t.inMode .maximum).operators, op.needsChance = false := by
      rw [operators_inMode]
      exact List.forall_mem_map.mpr fun op hop =>
        (Operator.needsChance_maximum op).trans (hrerolls op hop)
    obtain ⟨outcome, u, hforetold⟩ := exists_foretold hchance
    exact ⟨_, outcome, u, rewritten_eq .maximum t, hforetold⟩
  · have hchance : ∀ op ∈ (t.inMode .average).operators, op.needsChance = false := by
      rw [operators_inMode]
      refine List.forall_mem_map.mpr fun op hop => ?_
      exact (Operator.needsChance_average (ne_of_mem_of_not_mem hop hcritical)).trans
        (hrerolls op hop)
    obtain ⟨outcome, u, hforetold⟩ := exists_foretold hchance
    exact ⟨_, outcome, u, rewritten_eq .average t, hforetold⟩

theorem modes_foretold_nested :
    ∃ t highest average fault u v, Tree.ofText (ascii ['1', 'd', '1', 'd', '6']) = .ok t ∧
      t.rewritten .maximum = .ok highest ∧ t.rewritten .average = .ok average ∧
      (∀ n, highest.evaluate (Script.source 0) (Script.steady n) =
        (.ok (.int 6), u, Script.steady n)) ∧
      ∀ n, average.evaluate (Script.source 0) (Script.steady n) =
        (.error (.evaluation fault), v, Script.steady n) := by
  let t : Tree :=
    .node (.dice .plain) (.node (.dice .plain) (.ofNumber (.int 1)) (.ofNumber (.int 1)) none)
    (.ofNumber (.int 6)) none
  obtain ⟨⟨highest, outcome, u, hhighest, hmost⟩, haverage⟩ := modes_foretold t (by decide)
  obtain ⟨average, outcome', v, haverage, hmean⟩ := haverage (by decide)
  obtain rfl : t.inMode .maximum = highest :=
    Except.ok.inj ((rewritten_eq .maximum t).symm.trans hhighest)
  obtain rfl : t.inMode .average = average :=
    Except.ok.inj ((rewritten_eq .average t).symm.trans haverage)
  have hsix :
      ((t.inMode .maximum).evaluate (Script.source 0) (Script.steady 4)).1 = .ok (.int 6) := by
    decide +kernel
  have hreal : ((t.inMode .average).evaluate (Script.source 0) (Script.steady 4)).1 =
      .error (.evaluation (.notInteger .diceCount (.real (.finite 1)))) := by decide +kernel
  rw [(hmost _ (Script.source 0) (Script.steady 4)).1] at hsix
  rw [(hmean _ (Script.source 0) (Script.steady 4)).1] at hreal
  obtain rfl : outcome = .ok (.int 6) := hsix
  obtain rfl : outcome' = .error _ := hreal
  exact ⟨t, _, _, _, u, v, by decide +kernel, hhighest, haverage,
    fun n => (hmost _ _ _).1, fun n => (hmean _ _ _).1⟩

end Tree

end DiceFormula
