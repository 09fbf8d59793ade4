import DiceFormula.Operator.Apply

/-! A source that keeps its draws gives what the source itself gives. Every computation that draws
is built from requests, results that need no chance, and sequences of both, so that it does not see
who keeps its draws. Nor does it see the draws kept before: its own only come in front of them. -/
namespace DiceFormula

variable {σ ε α β : Type} {source : Source σ}

namespace Rolling

def Mirrors (x : Rolling σ ε α) (y : Rolling (σ × List Draw) ε α) : Prop :=
  ∀ s draws, ∃ draws', y (s, draws) = ((x s).1, (x s).2, draws')

/-- The second computation does what the first one does, and the draws made for it come before those
that were kept already, whatever these are. -/
def Prepends (x : Rolling σ ε α) (y : Rolling (σ × List Draw) ε α) : Prop :=
  ∀ s, ∃ made, ∀ draws, y (s, draws) = ((x s).1, (x s).2, made ++ draws)

variable {x : Rolling σ ε α} {y : Rolling (σ × List Draw) ε α}

theorem prepends_of (r : Except ε α) : Prepends (of r : Rolling σ ε α) (of r) :=
  fun _ => ⟨[], fun _ => rfl⟩

theorem Prepends.mirrors (h : Prepends x y) : Mirrors x y := by
  intro s draws
  obtain ⟨made, hy⟩ := h s
  exact ⟨made ++ draws, hy draws⟩

theorem prepends_lift (r : Except ε α) : Prepends (liftM r : Rolling σ ε α) (liftM r) :=
  prepends_of r

theorem prepends_pure (a : α) : Prepends (pure a : Rolling σ ε α) (pure a) := prepends_of (.ok a)

theorem prepends_fail (e : ε) : Prepends (fail e : Rolling σ ε α) (fail e) := prepends_of (.error e)

theorem Prepends.bind {f : α → Rolling σ ε β} {g : α → Rolling (σ × List Draw) ε β}
    (h : Prepends x y) (hnext : ∀ a, Prepends (f a) (g a)) : Prepends (x >>= f) (y >>= g) := by
  intro s
  obtain ⟨made, hy⟩ := h s
  rcases hx : x s with ⟨_ | a, t⟩
  · refine ⟨made, fun draws => ?_⟩
    rw [bind_apply, bind_apply, hy, hx]
  · obtain ⟨made', hg⟩ := hnext a t
    refine ⟨made' ++ made, fun draws => ?_⟩
    rw [bind_apply, bind_apply, hy, hx]
    exact (hg (made ++ draws)).trans (by rw [List.append_assoc])

theorem Prepends.ite {x' : Rolling σ ε α} {y' : Rolling (σ × List Draw) ε α} {p : Prop}
    [Decidable p] (h : Prepends x y) (h' : Prepends x' y') :
    Prepends (if p then x else x') (if p then y else y') := by
  split
  · exact h
  · exact h'

theorem Prepends.map {f : α → β} (h : Prepends x y) :
    Prepends (do return f (← x) : Rolling σ ε β) (do return f (← y)) :=
  h.bind fun _ => prepends_pure _

theorem Prepends.foldlM {f : β → α → Rolling σ ε β} {g : β → α → Rolling (σ × List Draw) ε β}
    (h : ∀ b a, Prepends (f b a) (g b a)) (values : List α) (b : β) :
    Prepends (values.foldlM f b) (values.foldlM g b) := by
  induction values generalizing b with
  | nil => exact prepends_pure b
  | cons a rest ih =>
    rw [List.foldlM_cons, List.foldlM_cons]
    exact (h b a).bind ih

end Rolling

open Rolling

namespace Source

theorem prepends_uniformInt (low high : Int) :
    Prepends (source.uniformInt low high) (source.recorded.uniformInt low high) := by
  intro s
  simp only [recorded]
  rcases source.uniformInt low high s with ⟨_ | n, t⟩
  · exact ⟨[], fun _ => rfl⟩
  · exact ⟨[.uniform low high n], fun _ => rfl⟩

theorem prepends_pickIndex (count : Nat) :
    Prepends (source.pickIndex count) (source.recorded.pickIndex count) := by
  intro s
  simp only [recorded]
  rcases source.pickIndex count s with ⟨_ | i, t⟩
  · exact ⟨[], fun _ => rfl⟩
  · exact ⟨[.pick count i], fun _ => rfl⟩

theorem prepends_choice (values : List α) :
    Prepends (source.choice values) (source.recorded.choice values) :=
  (prepends_fail _).ite (prepends_pickIndex _).map

theorem prepends_throwDie (die : Die) :
    Prepends (source.throwDie die) (source.recorded.throwDie die) := by
  refine (prepends_lift _).bind fun _ => ?_
  cases die with
  | sides count => exact (prepends_uniformInt 1 count).map
  | faces values => exact prepends_choice values

theorem throwDice_succ (source : Source σ) (die : Die) (count : Nat) (thrown : List Number) :
    source.throwDice die (count + 1) thrown =
      (source.throwDie die >>= fun a =>
        source.throwDice die count (a :: thrown) : Rolling σ Fault _) := by
  funext s
  simp only [throwDice, Bind.bind, Rolling.bind]
  rcases source.throwDie die s with ⟨_ | _, _⟩ <;> rfl

theorem prepends_throwDice (die : Die) (count : Nat) (thrown : List Number) :
    Prepends (source.throwDice die count thrown) (source.recorded.throwDice die count thrown) := by
  induction count generalizing thrown with
  | zero => exact prepends_pure _
  | succ count ih =>
    rw [throwDice_succ, throwDice_succ]
    exact (prepends_throwDie die).bind fun a => ih (a :: thrown)

variable {die : Die} {fires : Number → Bool}

def rerollStep (source : Source σ) (die : Die) (fires : Number → Bool) (v : Visited) (a : Number) :
    Rolling σ Fault Visited :=
  if fires a then do return (v.putAside a).keep (← source.throwDie die) else return v.keep a

theorem rerollOnce_eq_foldlM (source : Source σ) (values : List Number) (v : Visited) :
    source.rerollOnce die fires values v = values.foldlM (source.rerollStep die fires) v := by
  induction values generalizing v with
  | nil => rfl
  | cons a rest ih =>
    funext s
    rw [List.foldlM_cons, bind_apply, rerollOnce, rerollStep]
    by_cases hfires : fires a
    · rw [if_pos hfires, if_pos hfires, bind_apply]
      rcases source.throwDie die s with ⟨_ | b, t⟩
      · rfl
      · exact congrFun (ih ((v.putAside a).keep b)) t
    · rw [if_neg hfires, if_neg hfires]
      exact congrFun (ih (v.keep a)) s

theorem prepends_rerollOnce (values : List Number) (v : Visited) :
    Prepends (source.rerollOnce die fires values v)
      (source.recorded.rerollOnce die fires values v) := by
  rw [rerollOnce_eq_foldlM, rerollOnce_eq_foldlM]
  exact Prepends.foldlM (fun _ _ => (prepends_throwDie die).map.ite (prepends_pure _)) values v

theorem rerollValue_zero (source : Source σ) (a : Number) (v : Visited) :
    source.rerollValue die fires 0 a v =
      (if fires a then fail .patienceEnded else pure (v.keep a) : Rolling σ Fault Visited) := by
  funext s
  rw [rerollValue]
  split <;> rfl

theorem rerollValue_succ (source : Source σ) (trials : Nat) (a : Number) (v : Visited) :
    source.rerollValue die fires (trials + 1) a v =
      (if fires a then source.throwDie die >>= fun b =>
        source.rerollValue die fires trials b (v.putAside a)
        else pure (v.keep a) : Rolling σ Fault Visited) := by
  funext s
  rw [rerollValue]
  split
  · simp only [Bind.bind, Rolling.bind]
    rcases source.throwDie die s with ⟨_ | _, _⟩ <;> rfl
  · rfl

theorem prepends_rerollValue (trials : Nat) (a : Number) (v : Visited) :
    Prepends (source.rerollValue die fires trials a v)
      (source.recorded.rerollValue die fires trials a v) := by
  induction trials generalizing a v with
  | zero =>
    rw [rerollValue_zero, rerollValue_zero]
    exact (prepends_fail _).ite (prepends_pure _)
  | succ trials ih =>
    rw [rerollValue_succ, rerollValue_succ]
    exact ((prepends_throwDie die).bind fun b => ih b (v.putAside a)).ite (prepends_pure _)

def settleStep (source : Source σ) (die : Die) (fires : Number → Bool) (v : Visited) (a : Number) :
    Rolling σ Fault Visited := source.rerollValue die fires source.patience a v

theorem rerollUntil_eq_foldlM (source : Source σ) (values : List Number) (v : Visited) :
    source.rerollUntil die fires values v = values.foldlM (source.settleStep die fires) v := by
  induction values generalizing v with
  | nil => rfl
  | cons a rest ih =>
    funext s
    rw [List.foldlM_cons, bind_apply, rerollUntil, settleStep]
    rcases source.rerollValue die fires source.patience a v s with ⟨_ | w, t⟩
    · rfl
    · exact congrFun (ih w) t

theorem prepends_rerollUntil (values : List Number) (v : Visited) :
    Prepends (source.rerollUntil die fires values v)
      (source.recorded.rerollUntil die fires values v) := by
  rw [rerollUntil_eq_foldlM, rerollUntil_eq_foldlM]
  exact Prepends.foldlM (fun v a => prepends_rerollValue source.patience a v) values v

end Source

namespace Roll

theorem prepends_rerollOnce (r : Roll) (trigger : Trigger) (target : Number) :
    Prepends (r.rerollOnce source trigger target) (r.rerollOnce source.recorded trigger target) :=
  (Source.prepends_rerollOnce _ _).map

theorem prepends_rerollUntil (r : Roll) (trigger : Trigger) (target : Number) :
    Prepends (r.rerollUntil source trigger target) (r.rerollUntil source.recorded trigger target) :=
  (prepends_lift _).bind fun _ => (prepends_lift _).bind fun _ =>
    (prepends_fail _).ite (Source.prepends_rerollUntil _ _).map

theorem prepends_throwMany (count : Nat) (die : Die) :
    Prepends (throwMany source count die) (throwMany source.recorded count die) :=
  (prepends_lift _).bind fun _ => (Source.prepends_throwDice die count []).map

end Roll

namespace Operator

theorem prepends_throwDice (throw : Throw) (left right : Value) :
    Prepends (throwDice source throw left right) (throwDice source.recorded throw left right) := by
  refine (prepends_lift _).bind fun count => ?_
  cases throw with
  | plain | critical =>
    exact (prepends_lift _).bind fun die => (prepends_lift _).bind fun dice =>
      Roll.prepends_throwMany _ die
  | average | maximum => exact (prepends_lift _).bind fun die => prepends_lift _

theorem prepends_reroll (pace : Pace) (trigger : Trigger) (left right : Value) :
    Prepends (reroll source pace trigger left right)
      (reroll source.recorded pace trigger left right) := by
  refine (prepends_lift _).bind fun r => (prepends_lift _).bind fun target => ?_
  cases pace with
  | once => exact Roll.prepends_rerollOnce r trigger target
  | untilSettled => exact Roll.prepends_rerollUntil r trigger target

theorem prepends_act (op : Operator) (left right : Value) :
    Prepends (op.act source left right) (op.act source.recorded left right) := by
  cases op with
  | dice throw => exact (prepends_throwDice throw left right).map
  | rerollEqual pace => exact (prepends_reroll pace .equal left right).map
  | rerollBeyond pace side spelling => exact (prepends_reroll pace (trigger side) left right).map
  | _ => exact (prepends_lift _).map

theorem prepends_apply (op : Operator) (left right : Option Value) :
    Prepends (op.apply source left right) (op.apply source.recorded left right) :=
  (prepends_lift _).bind fun _ => (prepends_lift _).bind fun _ => prepends_act op _ _

theorem mirrors_apply (op : Operator) (left right : Option Value) :
    Mirrors (op.apply source left right) (op.apply source.recorded left right) :=
      (prepends_apply op left right).mirrors

end Operator

end DiceFormula
