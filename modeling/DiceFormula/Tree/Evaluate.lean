import DiceFormula.Failure
import DiceFormula.Operator.Apply
import DiceFormula.Tree.Basic

/-! Evaluating a tree. Operands come before their operator, the left before the right, and every
node keeps its value. A failure ends the evaluation where it happens; the values found before it are
kept. -/
namespace DiceFormula

variable {σ : Type}

namespace Tree

/-- The value of a tree, which is none for the empty one, and the tree that keeps the values found.
-/
def run (source : Source σ) : Tree → σ → Except Fault (Option Value) × Tree × σ
  | .empty, s => (.ok none, .empty, s)
  | .leaf content _, s => (.ok (some content.value), .leaf content (some content.value), s)
  | .node op left right known, s =>
    match run source left s with
    | (.error fault, left, s) => (.error fault, .node op left right known, s)
    | (.ok a, left, s) =>
      match run source right s with
      | (.error fault, right, s) => (.error fault, .node op left right known, s)
      | (.ok b, right, s) =>
        match op.apply source a b s with
        | (.error fault, s) => (.error fault, .node op left right known, s)
        | (.ok v, s) => (.ok (some v), .node op left right (some v), s)

def totalOf : Option Value → Except Fault Number
  | none => .ok .zero
  | some v => v.total

/-- The total of a tree. A fault anywhere inside is the cause of one failure. -/
def evaluate (source : Source σ) (t : Tree) (s : σ) : Except Failure Number × Tree × σ :=
  match run source t s with
  | (.error fault, t, s) => (.error (.evaluation fault), t, s)
  | (.ok v, t, s) =>
    match totalOf v with
    | .ok a => (.ok a, t, s)
    | .error fault => (.error (.evaluation fault), t, s)

end Tree

end DiceFormula
