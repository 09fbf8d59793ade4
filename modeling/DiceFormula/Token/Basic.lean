import DiceFormula.Operator.Basic
import DiceFormula.Value

/-! The tokens of a formula: numbers, faces, operators and parentheses, each with its place. -/
namespace DiceFormula

/-- What a formula can name outright, and all that a leaf of a tree can hold: never a roll. -/
inductive Literal
  | number (value : Number)
  | faces (values : Faces)
deriving DecidableEq

namespace Literal

def value : Literal → Value
  | .number a => .number a
  | .faces values => .faces values

def text (l : Literal) : Text := l.value.text

def same : Literal → Literal → Bool
  | .number a, .number b => a.same b
  | .faces as, .faces bs => Number.sameList as bs
  | _, _ => false

end Literal

inductive Symbol
  | literal (content : Literal)
  | operator (op : Operator)
  | opening
  | closing
deriving DecidableEq

namespace Symbol

def number (a : Number) : Symbol := .literal (.number a)

def text : Symbol → Text
  | .literal content => content.text
  | .operator op => op.code
  | .opening => ascii ['(']
  | .closing => ascii [')']

def same : Symbol → Symbol → Bool
  | .literal a, .literal b => a.same b
  | .operator op, .operator other => op == other
  | .opening, .opening => true
  | .closing, .closing => true
  | _, _ => false

end Symbol

structure Token where
  symbol : Symbol
  position : Nat
deriving DecidableEq

namespace Token

/-- Tokens are the same wherever they stand. -/
def same (a b : Token) : Bool := a.symbol.same b.symbol

end Token

end DiceFormula
