import DiceFormula.Roll.Reroll
import DiceFormula.Roll.Select

/-! What an operator makes of its operands. Operands are first added up where the operator wants
numbers; then each must be of the kind that its part demands. -/
namespace DiceFormula

variable {σ : Type}

namespace Value

def roll? (role : Role) : Value → Except Fault Roll
  | .roll r => .ok r
  | given => .error (.notRoll role given)

def number? (role : Role) : Value → Except Fault Number
  | .number a => .ok a
  | given => .error (.notNumber role given)

def integer? (role : Role) (v : Value) : Except Fault Int := do
  match ← v.number? role with
  | .int n => return n
  | a => throw (.notInteger role a)

/-- The die that is thrown. A roll stands for its total as the number of sides, or for its values as
the faces. -/
def die? (rollIsFaces : Bool) : Value → Except Fault Die
  | .faces values => .ok (.faces values)
  | .roll r =>
    if rollIsFaces then .ok (.faces r.values)
    else do
      match ← r.sum with
      | .int n => return .sides n
      | a => throw (.fractionalSides a)
  | v => do return .sides (← v.integer? .sideCount)

end Value

namespace Comparison

def holds (c : Comparison) (a b : Number) : Bool :=
  match c with
  | .greater => b.lt a
  | .atLeast => b.le a
  | .less => a.lt b
  | .atMost => a.le b

end Comparison

namespace Operator

/-! Operands are checked from left to right. Where both of them are unsuitable, this is a choice:
which of the two faults is reported is left open. -/

def throwDice (source : Source σ) (throw : Throw) (left right : Value) : Rolling σ Fault Roll := do
  let count ← left.integer? .diceCount
  match throw with
  | .plain => Roll.plain source count (← right.die? false)
  | .critical => Roll.critical source count (← right.die? false)
  | .average => Roll.average count (← right.die? true)
  | .maximum => Roll.maximum count (← right.die? true)

def reroll (source : Source σ) (pace : Pace) (trigger : Trigger) (left right : Value) :
    Rolling σ Fault Roll := do
  let r ← left.roll? (.rerolled pace trigger)
  let target ← right.number? .rerollTarget
  match pace with
  | .once => r.rerollOnce source trigger target
  | .untilSettled => r.rerollUntil source trigger target

def keepDice (side : End) (left right : Value) : Except Fault Roll := do
  let r ← left.roll? (.kept side)
  let count ← right.integer? .keepCount
  match side with
  | .low => return r.keepLowest count
  | .high => return r.keepHighest count

def clampDice (side : End) (left right : Value) : Except Fault Roll := do
  let r ← left.roll? (.clamped side)
  let bound ← right.number? (.bound side)
  match side with
  | .low => return r.raiseTo bound
  | .high => return r.lowerTo bound

def judgeDice (side : End) (left right : Value) : Except Fault Roll := do
  let r ← left.roll? (.judged side)
  let threshold ← right.integer? .threshold
  match side with
  | .low => return r.atLeast threshold
  | .high => return r.atMost threshold

def trigger (side : End) : Trigger :=
  match side with
  | .low => .below
  | .high => .above

def numbers (leftRole rightRole : Role) (left right : Value) : Except Fault (Number × Number) := do
  let a ← left.number? leftRole
  let b ← right.number? rightRole
  return (a, b)

def arithmetic (op : Operator) (left right : Value) : Except Fault Number :=
  match op with
  | .factorial => do Number.factorial (← left.integer? .factorialArgument)
  | .negate => do return (← right.number? .negated).neg
  | .affirm => right.number? .affirmed
  | .power => do let (a, b) ← numbers .base .exponent left right; a.power b
  | .multiply => do let (a, b) ← numbers (.factor .low) (.factor .high) left right; a.mul b
  | .divide => do let (a, b) ← numbers .dividend .divisor left right; a.div b
  | .modulo => do let (a, b) ← numbers .dividend .divisor left right; a.mod b
  | .subtract => do let (a, b) ← numbers .minuend .subtrahend left right; a.sub b
  | .add => do let (a, b) ← numbers (.addend .low) (.addend .high) left right; a.add b
  | _ => do
    let (a, b) ← numbers (.compared .low) (.compared .high) left right
    let verdict := match op with
      | .compare c _ => c.holds a b
      | .either => a.truthy || b.truthy
      | .both => a.truthy && b.truthy
      | _ => a.same b
    return .ofBool verdict

def act (source : Source σ) (op : Operator) (left right : Value) : Rolling σ Fault Value :=
  match op with
  | .dice throw => do return .roll (← throwDice source throw left right)
  | .keep side => do return .roll (← keepDice side left right)
  | .clamp side => do return .roll (← clampDice side left right)
  | .rerollEqual pace => do return .roll (← reroll source pace .equal left right)
  | .rerollBeyond pace side _ => do return .roll (← reroll source pace (trigger side) left right)
  | .threshold side => do return .roll (← judgeDice side left right)
  | _ => do return .number (← op.arithmetic left right)

/-- An operand as the operator gets it; one that it does not take counts as zero. -/
def operand (taken summed : Bool) (missing : Fault) (given : Option Value) : Except Fault Value :=
  if !taken then .ok (.number .zero)
  else match given with
    | none => .error missing
    | some v => if summed then do return .number (← v.total) else .ok v

def apply (source : Source σ) (op : Operator) (left right : Option Value) :
    Rolling σ Fault Value := do
  let a ← operand op.takesLeft op.summed.hasLeft (.missingLeft op) left
  let b ← operand op.takesRight op.summed.hasRight (.missingRight op) right
  op.act source a b

end Operator

end DiceFormula
