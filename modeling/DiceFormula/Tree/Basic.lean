import DiceFormula.Token.Basic

/-! Trees of formulas. A node keeps the value that it had when it was last evaluated. The empty tree
stands for the formula that has nothing in it, and for an operand that an operator does not take. -/
namespace DiceFormula

inductive Tree
  | empty
  | leaf (content : Literal) (known : Option Value)
  | node (op : Operator) (left right : Tree) (known : Option Value)
deriving DecidableEq

namespace Tree

def ofNumber (a : Number) : Tree := .leaf (.number a) none

def zero : Tree := ofNumber .zero

def isEmpty : Tree → Bool
  | .empty => true
  | _ => false

def known : Tree → Option Value
  | .empty => none
  | .leaf _ v => v
  | .node _ _ _ v => v

def depth : Tree → Nat
  | .empty => 0
  | .leaf _ _ => 1
  | .node _ left right _ => 1 + max left.depth right.depth

def fits (op : Operator) (left right : Tree) : Bool :=
  op.takesLeft == !left.isEmpty && op.takesRight == !right.isEmpty

/-- Every operator has exactly the operands that it takes. -/
def WellFormed : Tree → Prop
  | .empty => True
  | .leaf _ _ => True
  | .node op left right _ => fits op left right ∧ left.WellFormed ∧ right.WellFormed

/-- The same shape, operators and leaves; known values do not count. -/
def same : Tree → Tree → Bool
  | .empty, .empty => true
  | .leaf a _, .leaf b _ => a.same b
  | .node op left right _, .node op' left' right' _ =>
    op == op' && left.same left' && right.same right'
  | _, _ => false

end Tree

end DiceFormula
