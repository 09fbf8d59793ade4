import DiceFormula.Token.Scan
import DiceFormula.Tree.Basic

/-! The tree of a list of tokens. Operands wait in a stack until their operator is complete; an
operator waits in another until one comes that does not bind more strongly. -/
namespace DiceFormula

namespace Build

structure Operand where
  tree : Tree
  position : Nat
  depth : Nat

inductive Pending
  | operator (op : Operator) (position : Nat)
  | opening (position : Nat)

structure Stacks where
  pending : List Pending
  operands : List Operand

/-- Too few operands: the right one is missing when the operator takes one and none stands after it.
-/
def lacking (op : Operator) (position : Nat) (operands : List Operand) : Flaw :=
  let noneAfter := match operands with
    | [] => true
    | top :: _ => top.position < position
  if op.takesRight && noneAfter then .lacksRight op else .lacksLeft op

def join (op : Operator) (position : Nat) (left right : Tree) (start depth : Nat) :
    Except Located Operand :=
  if depthLimit < depth then .error (.tooDeep, position)
  else .ok ⟨.node op left right none, start, depth⟩

def reduce (op : Operator) (position : Nat) (operands : List Operand) :
    Except Located (List Operand) :=
  match op.takesLeft, op.takesRight, operands with
  | true, true, right :: left :: rest => do
    return (← join op position left.tree right.tree left.position
      (1 + max left.depth right.depth)) :: rest
  | true, false, left :: rest => do
    return (← join op position left.tree .empty left.position (1 + left.depth)) :: rest
  | false, true, right :: rest => do
    return (← join op position .empty right.tree position (1 + right.depth)) :: rest
  | false, false, rest => do
    return (← join op position .empty .empty position 1) :: rest
  | _, _, _ => .error (lacking op position operands, position)

def reduceBefore (incoming : Operator) :
    List Pending → List Operand → Except Located Stacks
  | .operator op position :: rest, operands =>
    if op.reducesBefore incoming then
      match reduce op position operands with
      | .ok operands => reduceBefore incoming rest operands
      | .error e => .error e
    else .ok ⟨.operator op position :: rest, operands⟩
  | pending, operands => .ok ⟨pending, operands⟩

def pushOperator (op : Operator) (position : Nat) (s : Stacks) : Except Located Stacks := do
  let s ← if op.takesLeft then reduceBefore op s.pending s.operands else .ok s
  return ⟨.operator op position :: s.pending, s.operands⟩

def close (position : Nat) : List Pending → List Operand → Except Located Stacks
  | [], _ => .error (.unopened, position)
  | .opening _ :: rest, operands => .ok ⟨rest, operands⟩
  | .operator op place :: rest, operands =>
    match reduce op place operands with
    | .ok operands => close position rest operands
    | .error e => .error e

def step (s : Stacks) (token : Token) : Except Located Stacks :=
  match token.symbol with
  | .literal content => .ok ⟨s.pending, ⟨.leaf content none, token.position, 1⟩ :: s.operands⟩
  | .opening => .ok ⟨.opening token.position :: s.pending, s.operands⟩
  | .closing => close token.position s.pending s.operands
  | .operator op => pushOperator op token.position s

def steps (s : Stacks) : List Token → Except Located Stacks
  | [] => .ok s
  | token :: rest =>
    match step s token with
    | .ok s => steps s rest
    | .error e => .error e

def finish : List Pending → List Operand → Except Located (List Operand)
  | [], operands => .ok operands
  | .opening position :: _, _ => .error (.unclosed, position)
  | .operator op position :: rest, operands =>
    match reduce op position operands with
    | .ok operands => finish rest operands
    | .error e => .error e

/-- The one tree that is left; nothing at all counts as zero. -/
def single (operands : List Operand) : Except Located Tree :=
  match operands.reverse with
  | [] => .ok .zero
  | [only] => .ok only.tree
  | _ :: second :: _ => .error (.surplusOperand, second.position)

def tree (tokens : List Token) : Except Located Tree := do
  let s ← steps ⟨[], []⟩ tokens
  single (← finish s.pending s.operands)

end Build

namespace Tree

def ofTokens (tokens : List Token) (source : Text) : Except ParseError Tree :=
  match Build.tree tokens with
  | .ok t => .ok t
  | .error (flaw, offset) => .error ⟨flaw, offset, source⟩

def ofText (source : Text) : Except ParseError Tree := do
  ofTokens (← Token.ofText source) source

end Tree

end DiceFormula
