import DiceFormula.Operator.Apply
import DiceFormula.Tree.Listing

/-! Computations step by step, and the operators that need no chance to make a number of their
operands. -/
namespace DiceFormula

variable {σ ε α β : Type}

theorem exists_of_bind_eq_ok {x : Except ε α} {f : α → Except ε β} {b : β} (h : x >>= f = .ok b) :
    ∃ a, x = .ok a ∧ f a = .ok b := by
  cases x with
  | error e => cases h
  | ok a => exact ⟨a, rfl, h⟩

theorem eq_ok_of_toOption {x : Except ε α} {a : α} (h : x.toOption = some a) : x = .ok a := by
  cases x with
  | error e => cases h
  | ok b => exact congrArg Except.ok (Option.some.inj h)

theorem Rolling.bind_eq_ok {x : Rolling σ ε α} {f : α → Rolling σ ε β} {b : β} {s t : σ}
    (h : (x >>= f) s = (.ok b, t)) : ∃ a s₁, x s = (.ok a, s₁) ∧ f a s₁ = (.ok b, t) := by
  rw [bind_apply] at h
  split at h
  · next a s₁ hx => exact ⟨a, s₁, hx, h⟩
  · cases h

theorem Rolling.lift_bind_apply (r : Except ε α) (f : α → Rolling σ ε β) (s : σ) :
    ((liftM r : Rolling σ ε α) >>= f) s = match r with
      | .ok a => f a s
      | .error e => (.error e, s) := by
  cases r <;> rfl

namespace Operator

def compute (op : Operator) (left right : Option Value) : Except Fault Value := do
  let a ← operand op.takesLeft op.summed.hasLeft (.missingLeft op) left
  let b ← operand op.takesRight op.summed.hasRight (.missingRight op) right
  return .number (← op.arithmetic a b)

theorem act_of_low {op : Operator} (h : op.precedence < Tree.rollPrecedence) (source : Source σ)
    (a b : Value) (s : σ) :
    op.act source a b s = (op.arithmetic a b >>= fun n => pure (.number n), s) := by
  cases op with
  | dice | keep | clamp | rerollEqual | rerollBeyond | threshold =>
    simp [precedence, Tree.rollPrecedence] at h
  | _ =>
    dsimp only [act]
    rw [Rolling.lift_bind_apply]
    split <;> next hn => rw [hn]; rfl

theorem apply_of_low {op : Operator} (h : op.precedence < Tree.rollPrecedence) (source : Source σ)
    (left right : Option Value) (s : σ) :
    op.apply source left right s = (op.compute left right, s) := by
  rw [apply, compute, Rolling.lift_bind_apply]
  cases operand op.takesLeft op.summed.hasLeft (.missingLeft op) left with
  | error fault => rfl
  | ok a =>
    dsimp only
    rw [Rolling.lift_bind_apply]
    cases operand op.takesRight op.summed.hasRight (.missingRight op) right with
    | error fault => rfl
    | ok b => exact act_of_low h source a b s

end Operator

end DiceFormula
