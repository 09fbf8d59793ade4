import DiceFormula.Tree.Basic

/-! Modes of rolling. A mode changes how the dice of a tree are thrown: the critical mode overrides
the average one, and the maximum mode overrides both. -/
namespace DiceFormula

inductive Mode
  | normal
  | average
  | critical
  | maximum
deriving DecidableEq

namespace Mode

def averageName : Text := utf8 "average"
def criticalName : Text := utf8 "critical"
def maximumName : Text := utf8 "maximum"

/-- The mode of a name in any case; every other text is the normal mode. -/
def ofText (t : Text) : Mode :=
  let name := t.lower
  if name = averageName then .average
  else if name = criticalName then .critical
  else if name = maximumName then .maximum
  else .normal

def throw : Mode → Throw → Throw
  | .average, .plain => .average
  | .critical, .plain | .critical, .average => .critical
  | .maximum, _ => .maximum
  | _, other => other

end Mode

namespace Operator

def inMode (mode : Mode) : Operator → Operator
  | .dice throw => .dice (mode.throw throw)
  | op => op

@[simp] theorem arity_inMode (mode : Mode) (op : Operator) : (op.inMode mode).arity = op.arity := by
  cases op <;> rfl

end Operator

namespace Tree

def inMode (mode : Mode) : Tree → Tree
  | .empty => .empty
  | .leaf content known => .leaf content known
  | .node op left right known => .node (op.inMode mode) (left.inMode mode) (right.inMode mode) known

@[simp] theorem isEmpty_inMode (mode : Mode) (t : Tree) : (t.inMode mode).isEmpty = t.isEmpty := by
  cases t <;> rfl

end Tree

end DiceFormula
