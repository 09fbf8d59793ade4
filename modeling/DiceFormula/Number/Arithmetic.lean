import DiceFormula.Fault
import DiceFormula.Number.Word

/-! Arithmetic of numbers. Integers stay integers while the result is a word; otherwise, and for
reals, the operation is done on reals. A result that is no number is refused. -/
namespace DiceFormula.Number

def ofReal (x : Binary64) : Except Fault Number :=
  if x.isNaN then .error .indeterminate else .ok (.real x)

def exactOr (exact : Traced (Option Int)) (real : Unit → Binary64) :
    Traced (Except Fault Number) := do
  match ← exact with
  | some n => return .ok (.int n)
  | none => return ofReal (real ())

def addTraced (a b : Number) : Traced (Except Fault Number) :=
  match a, b with
  | .int m, .int n => exactOr (Word.sum? m n) fun _ => a.toReal.add b.toReal
  | _, _ => return ofReal (a.toReal.add b.toReal)

def subTraced (a b : Number) : Traced (Except Fault Number) :=
  match a, b with
  | .int m, .int n => exactOr (Word.difference? m n) fun _ => a.toReal.sub b.toReal
  | _, _ => return ofReal (a.toReal.sub b.toReal)

def mulTraced (a b : Number) : Traced (Except Fault Number) :=
  match a, b with
  | .int m, .int n => exactOr (Word.product? m n) fun _ => a.toReal.mul b.toReal
  | _, _ => return ofReal (a.toReal.mul b.toReal)

/-- Division always leaves the integers. -/
def div (a b : Number) : Except Fault Number :=
  if b.toReal.isZero then .error .divisionByZero else ofReal (a.toReal.div b.toReal)

def realMod (x y : Binary64) : Binary64 :=
  let rest := x.rem y
  if !rest.isZero && (rest.lt (.zero false) != y.lt (.zero false)) then rest.add y else rest

def modTraced (a b : Number) : Traced (Except Fault Number) :=
  if b.toReal.isZero then return .error .moduloByZero
  else match a, b with
    | .int m, .int n => do return .ok (.int (← Word.modulo m n))
    | _, _ => return ofReal (realMod a.toReal b.toReal)

def negTraced : Number → Traced Number
  | .int n => do
    match ← Word.negation? n with
    | some m => return .int m
    | none => return .real (Binary64.ofInt n).neg
  | .real x => return .real x.neg

def powerTraced (a b : Number) : Traced (Except Fault Number) :=
  if a.toReal.isZero && b.toReal.lt (.zero false) then return .error .zeroToNegativePower
  else match a, b with
    | .int base, .int exponent =>
      if 0 ≤ exponent then
        exactOr (Word.power? base exponent.toNat) fun _ => a.toReal.pow b.toReal
      else return ofReal (a.toReal.pow b.toReal)
    | _, _ => return ofReal (a.toReal.pow b.toReal)

def add (a b : Number) : Except Fault Number := (a.addTraced b).value

def sub (a b : Number) : Except Fault Number := (a.subTraced b).value

def mul (a b : Number) : Except Fault Number := (a.mulTraced b).value

def mod (a b : Number) : Except Fault Number := (a.modTraced b).value

def neg (a : Number) : Number := a.negTraced.value

def power (a b : Number) : Except Fault Number := (a.powerTraced b).value

def risingProduct (acc : Number) (next : Int) : Nat → Traced (Except Fault Number)
  | 0 => return .ok acc
  | factors + 1 => do
    match ← acc.mulTraced (.int next) with
    | .ok product => risingProduct product (← Traced.word (next + 1)) factors
    | .error fault => return .error fault

/-- The factorial of 171 is above every finite real. -/
def factorialLimit : Int := 170

def factorialTraced (n : Int) : Traced (Except Fault Number) :=
  if n < 0 then return .error .negativeFactorial
  else if factorialLimit < n then return .error (.hugeFactorial n)
  else risingProduct .one 2 (n.toNat - 1)

def factorial (n : Int) : Except Fault Number := (factorialTraced n).value

def sumFrom (total : Number) : List Number → Except Fault Number
  | [] => .ok total
  | a :: rest =>
    match total.add a with
    | .ok next => sumFrom next rest
    | .error fault => .error fault

def sum (numbers : List Number) : Except Fault Number := sumFrom .zero numbers

end DiceFormula.Number
