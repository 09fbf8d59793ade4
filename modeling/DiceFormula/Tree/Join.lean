import DiceFormula.Fault
import DiceFormula.Tree.Basic

/-! Trees put together, and operators put in the place of others. -/
namespace DiceFormula.Tree

def ofOperands (op : Operator) (left right : Tree) : Except Fault Tree :=
  if fits op left right then .ok (.node op left right none) else .error (.wrongArity op)

def orZero : Tree → Tree
  | .empty => zero
  | t => t

def combine (op : Operator) (left right : Tree) : Except Fault Tree :=
  if op.arity = .both then .ok (.node op left.orZero right.orZero none) else .error (.notBinary op)

def setRootOperator (op : Operator) : Tree → Except Fault Tree
  | .node replaced left right known =>
    if op.arity = replaced.arity then .ok (.node op left right known)
    else .error (.notInterchangeable op replaced)
  | t => .ok t

inductive Turn
  | left
  | right
deriving DecidableEq

def setOperator (op : Operator) : List Turn → Tree → Except Fault Tree
  | [], t => t.setRootOperator op
  | .left :: path, .node other left right known => do
    return .node other (← setOperator op path left) right known
  | .right :: path, .node other left right known => do
    return .node other left (← setOperator op path right) known
  | _ :: _, t => .ok t

theorem isEmpty_orZero (t : Tree) : t.orZero.isEmpty = false := by
  cases t <;> rfl

end DiceFormula.Tree
