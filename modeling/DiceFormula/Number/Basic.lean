import DiceFormula.Binary64.Shortest

/-! Numbers of a formula: exact integers and floating point reals. Two integers are compared
exactly, any other pair as reals. -/
namespace DiceFormula

inductive Number
  | int (value : Int)
  | real (value : Binary64)
deriving DecidableEq

namespace Number

def zero : Number := .int 0
def one : Number := .int 1

def toReal : Number → Binary64
  | .int n => .ofInt n
  | .real x => x

def isInteger : Number → Bool
  | .int _ => true
  | .real _ => false

def truncated : Number → Int
  | .int n => n
  | .real x => x.truncate

def truthy (a : Number) : Bool := !a.toReal.isZero

/-- An integer is written without a point, a finite real always with a point or an exponent. -/
def text : Number → Text
  | .int n => Text.ofInt n
  | .real x => x.text

def same : Number → Number → Bool
  | .int m, .int n => m == n
  | a, b => a.toReal.same b.toReal

def lt : Number → Number → Bool
  | .int m, .int n => m < n
  | a, b => a.toReal.lt b.toReal

def le (a b : Number) : Bool := !b.lt a

def ofBool (b : Bool) : Number := if b then one else zero

def sameList : List Number → List Number → Bool
  | [], [] => true
  | a :: as, b :: bs => a.same b && sameList as bs
  | _, _ => false

def listText (numbers : List Number) : Text :=
  Text.joined (ascii [',', ' ']) (numbers.map text)

@[simp] theorem lt_int (m n : Int) : (int m).lt (int n) = decide (m < n) := rfl

@[simp] theorem le_int (m n : Int) : (int m).le (int n) = decide (m ≤ n) := by
  simp only [le, lt_int, ← decide_not, Int.not_lt]

@[simp] theorem same_int (m n : Int) : (int m).same (int n) = (m == n) := rfl

end Number

end DiceFormula
