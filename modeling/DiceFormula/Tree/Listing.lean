import DiceFormula.Tree.Evaluate

/-! Listings of a tree: its nodes with each operator before its operands, or between them with the
parentheses that are needed; the explanation of a total; and natural rolls. -/
namespace DiceFormula

variable {σ : Type}

namespace Tree

def preOrder (stops : Tree → Bool) : Tree → List Tree
  | .empty => []
  | .leaf content known => [.leaf content known]
  | .node op left right known =>
    let self := node op left right known
    if stops self then [self] else self :: (preOrder stops left ++ preOrder stops right)

inductive Item
  | node (tree : Tree)
  | opening
  | closing
deriving DecidableEq

/-- The nodes, each operator between its operands. What binds more weakly than the operator above it
stands in parentheses. -/
def inOrderBelow (stops : Tree → Bool) (above : Nat) : Tree → List Item
  | .empty => []
  | .leaf content known => [.node (.leaf content known)]
  | .node op left right known =>
    let self := node op left right known
    if stops self then [.node self]
    else
      let items := inOrderBelow stops op.precedence left ++ .node self ::
        inOrderBelow stops op.precedence right
      if op.precedence < above then .opening :: (items ++ [.closing]) else items

def inOrder (stops : Tree → Bool) (t : Tree) : List Item := inOrderBelow stops 0 t

def rollPrecedence : Nat := 6

def precedenceAtLeast (limit : Int) : Tree → Bool
  | .node op _ _ _ => limit ≤ op.precedence
  | _ => false

def shownAsValue : Tree → Bool := precedenceAtLeast rollPrecedence

def shown (t : Tree) : Except Fault Text :=
  match t with
  | .node op _ _ _ =>
    if t.shownAsValue then
      match t.known with
      | some v => .ok v.text
      | none => .error .notEvaluated
    else .ok op.text
  | _ =>
    match t.known with
    | some v => .ok v.text
    | none => .error .notEvaluated

def Item.shown : Item → Except Fault Text
  | .node t => t.shown
  | .opening => .ok (ascii ['('])
  | .closing => .ok (ascii [')'])

def shownItems : List Item → Except Fault Text
  | [] => .ok []
  | item :: rest =>
    match item.shown with
    | .error fault => .error fault
    | .ok t =>
      match shownItems rest with
      | .error fault => .error fault
      | .ok others => .ok (t ++ others)

def explanation (t : Tree) : Except Fault Text := do
  let formula ← shownItems (inOrder shownAsValue t)
  let total ← totalOf t.known
  return formula ++ ascii [' ', '=', ' '] ++ total.text

/-- The explanation of the values found last; a tree that has none is evaluated first. -/
def explain (source : Source σ) (t : Tree) (s : σ) : Except Failure Text × Tree × σ :=
  if t.isEmpty then (.ok [], t, s)
  else if t.known.isSome then
    (match t.explanation with
      | .ok text => .ok text
      | .error fault => .error (.fault fault), t, s)
  else
    match t.evaluate source s with
    | (.error failure, t, s) => (.error failure, t, s)
    | (.ok _, t, s) =>
      (match t.explanation with
        | .ok text => .ok text
        | .error fault => .error (.fault fault), t, s)

def twentySided (t : Tree) : Option Roll :=
  match t.known with
  | some (.roll r) => if r.die.same (.sides 20) then some r else none
  | _ => none

def hasTwentySided (t : Tree) : Bool := t.twentySided.isSome

def showsNatural (face : Int) (t : Tree) : Bool :=
  (preOrder hasTwentySided t).any fun node =>
    match node.twentySided with
    | some r => r.contains (.int face)
    | none => false

def isCritical (t : Tree) : Bool := t.showsNatural 20

def isFail (t : Tree) : Bool := t.showsNatural 1

end Tree

end DiceFormula
