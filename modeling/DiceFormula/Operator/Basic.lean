import DiceFormula.Text

/-! The operators of a formula. Their codes, precedences and operand sides drive the reading of
formulas as well as their evaluation. -/
namespace DiceFormula

inductive Throw
  | plain
  | average
  | critical
  | maximum
deriving DecidableEq

inductive End
  | low
  | high
deriving DecidableEq

inductive Spelling
  | sign
  | letter
deriving DecidableEq

inductive Trigger
  | equal
  | below
  | above
deriving DecidableEq

inductive Pace
  | once
  | untilSettled
deriving DecidableEq

inductive Comparison
  | greater
  | atLeast
  | less
  | atMost
deriving DecidableEq

inductive Operator
  | factorial
  | dice (throw : Throw)
  | keep (side : End)
  | clamp (side : End)
  | rerollEqual (pace : Pace)
  | rerollBeyond (pace : Pace) (side : End) (spelling : Spelling)
  | threshold (side : End)
  | power
  | negate
  | affirm
  | multiply
  | divide
  | modulo
  | subtract
  | add
  | compare (comparison : Comparison) (spelling : Spelling)
  | equals
  | either
  | both
deriving DecidableEq

inductive Sides
  | neither
  | right
  | left
  | both
deriving DecidableEq

namespace Sides

def hasLeft : Sides → Bool
  | .left | .both => true
  | _ => false

def hasRight : Sides → Bool
  | .right | .both => true
  | _ => false

end Sides

namespace Operator

def code : Operator → Text
  | .factorial => ascii ['!']
  | .dice .plain => ascii ['d']
  | .dice .average => ascii ['d', 'a']
  | .dice .critical => ascii ['d', 'c']
  | .dice .maximum => ascii ['d', 'm']
  | .keep .high => ascii ['h']
  | .keep .low => ascii ['l']
  | .clamp .low => ascii ['f']
  | .clamp .high => ascii ['c']
  | .rerollEqual .once => ascii ['r']
  | .rerollEqual .untilSettled => ascii ['R']
  | .rerollBeyond .once .low .sign => ascii ['r', '<']
  | .rerollBeyond .once .low .letter => ascii ['r', 'l']
  | .rerollBeyond .once .high .sign => ascii ['r', '>']
  | .rerollBeyond .once .high .letter => ascii ['r', 'h']
  | .rerollBeyond .untilSettled .low .sign => ascii ['R', '<']
  | .rerollBeyond .untilSettled .low .letter => ascii ['R', 'l']
  | .rerollBeyond .untilSettled .high .sign => ascii ['R', '>']
  | .rerollBeyond .untilSettled .high .letter => ascii ['R', 'h']
  | .threshold .low => ascii ['t']
  | .threshold .high => ascii ['T']
  | .power => ascii ['^']
  | .negate => ascii ['m']
  | .affirm => ascii ['p']
  | .multiply => ascii ['*']
  | .divide => ascii ['/']
  | .modulo => ascii ['%']
  | .subtract => ascii ['-']
  | .add => ascii ['+']
  | .compare .greater .sign => ascii ['>']
  | .compare .greater .letter => ascii ['g', 't']
  | .compare .atLeast .sign => ascii ['>', '=']
  | .compare .atLeast .letter => ascii ['g', 'e']
  | .compare .less .sign => ascii ['<']
  | .compare .less .letter => ascii ['l', 't']
  | .compare .atMost .sign => ascii ['<', '=']
  | .compare .atMost .letter => ascii ['l', 'e']
  | .equals => ascii ['=']
  | .either => ascii ['|']
  | .both => ascii ['&']

def all : List Operator :=
  [.factorial, .modulo, .both, .multiply, .add, .subtract, .divide,
   .compare .less .sign, .compare .atMost .sign, .equals,
   .compare .greater .sign, .compare .atLeast .sign,
   .rerollEqual .untilSettled, .rerollBeyond .untilSettled .low .sign,
   .rerollBeyond .untilSettled .high .sign, .rerollBeyond .untilSettled .high .letter,
   .rerollBeyond .untilSettled .low .letter,
   .threshold .high, .power, .clamp .high,
   .dice .plain, .dice .average, .dice .critical, .dice .maximum,
   .clamp .low, .compare .atLeast .letter, .compare .greater .letter,
   .keep .high, .keep .low, .compare .atMost .letter, .compare .less .letter,
   .negate, .affirm,
   .rerollEqual .once, .rerollBeyond .once .low .sign, .rerollBeyond .once .high .sign,
   .rerollBeyond .once .high .letter, .rerollBeyond .once .low .letter,
   .threshold .low, .either]

theorem mem_all (op : Operator) : op ∈ all := by
  cases op with
  | dice throw => cases throw <;> decide
  | keep side => cases side <;> decide
  | clamp side => cases side <;> decide
  | rerollEqual pace => cases pace <;> decide
  | rerollBeyond pace side spelling => cases pace <;> cases side <;> cases spelling <;> decide
  | threshold side => cases side <;> decide
  | compare comparison spelling => cases comparison <;> cases spelling <;> decide
  | _ => decide

def ofCode? (code : Text) : Option Operator := all.find? fun op => op.code == code

def precedence : Operator → Nat
  | .factorial => 8
  | .dice _ => 7
  | .keep _ | .clamp _ | .rerollEqual _ | .rerollBeyond _ _ _ | .threshold _ => 6
  | .power => 5
  | .negate | .affirm => 4
  | .multiply | .divide | .modulo => 3
  | .subtract | .add => 2
  | .compare _ _ | .equals | .either | .both => 1

def arity : Operator → Sides
  | .factorial => .left
  | .negate | .affirm => .right
  | _ => .both

def takesLeft (op : Operator) : Bool := op.arity.hasLeft

def takesRight (op : Operator) : Bool := op.arity.hasRight

def associativity : Operator → Sides
  | .power => .right
  | _ => .left

/-- The operands that are added up to a number before the operator sees them. -/
def summed : Operator → Sides
  | .factorial | .dice _ => .left
  | .keep _ | .clamp _ | .rerollEqual _ | .rerollBeyond _ _ _ | .threshold _ => .right
  | .negate | .affirm => .right
  | _ => .both

/-- The text of an operator in an explanation: the signs look like a subtraction and an addition. -/
def text : Operator → Text
  | .negate => ascii ['-']
  | .affirm => ascii ['+']
  | op => op.code

def typeable : Operator → Bool
  | .negate | .affirm => false
  | _ => true

def isDice : Operator → Bool
  | .dice _ => true
  | _ => false

/-- Whether an operator that waits for its right operand is finished when another one follows. -/
def reducesBefore (op incoming : Operator) : Bool :=
  incoming.precedence < op.precedence
    || op.precedence == incoming.precedence && op.associativity == .left

def typeableCodes : List Text := (all.filter typeable).map code

def typed? (code : Text) : Option Operator := (ofCode? code).filter typeable

def beginsCode (t : Text) : Bool := typeableCodes.any t.isPrefixOf

def isCodeByte (b : UInt8) : Bool := typeableCodes.any (·.contains b)

theorem ofCode?_code (op : Operator) : ofCode? op.code = some op := by
  have h : ∀ op ∈ all, ofCode? op.code = some op := by decide +kernel
  exact h op (mem_all op)

theorem code_ne_nil (op : Operator) : op.code ≠ [] := by
  have h : ∀ op ∈ all, op.code ≠ [] := by decide
  exact h op (mem_all op)

end Operator

end DiceFormula
