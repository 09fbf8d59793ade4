import DiceFormula.Binary64.Basic
import DiceFormula.Text

/-! The decimal text of a floating point number: the fewest digits that read back as the same
number, and of those the nearest. Ordinary magnitudes are written out with a point, the very small
and the very large with an exponent. -/
namespace DiceFormula.Binary64

structure Decimal where
  digits : Nat
  exponent : Int
deriving DecidableEq

namespace Decimal

def value (d : Decimal) : Rat :=
  mkRat (d.digits * Nat.pow 10 d.exponent.toNat : Nat) (Nat.pow 10 (-d.exponent).toNat)

def strip (d : Decimal) : Decimal :=
  if 0 < d.digits ∧ d.digits % 10 = 0 then strip ⟨d.digits / 10, d.exponent + 1⟩ else d
termination_by d.digits
decreasing_by omega

def order (d : Decimal) : Int := d.exponent + (Text.ofNat d.digits).length - 1

end Decimal

def decimalOrder (q : Rat) : Int :=
  let num := q.num.natAbs
  if q.den ≤ num then (Text.ofNat (num / q.den)).length - 1
  else if q.den ≤ num * 10 then -1
  else -(Text.ofNat ((q.den - 1) / num)).length

/-- The rationals between `low` and `high` round to one number; the ends do when its significand is
even. -/
structure Neighbourhood where
  low : Rat
  high : Rat
  closed : Bool

def neighbourhood (q : Rat) : Neighbourhood :=
  let m := significand q
  let unit := spacing q
  let narrow := m == 1 <<< 52 && -1074 < unit
  { low := if narrow then scaled (4 * m - 1) (unit - 2) else scaled (2 * m - 1) (unit - 1)
    high := scaled (2 * m + 1) (unit - 1)
    closed := m % 2 == 0 }

def Neighbourhood.holds (n : Neighbourhood) (q : Rat) : Bool :=
  n.low < q && q < n.high || n.closed && (q == n.low || q == n.high)

def nearestOnGrid (q : Rat) (n : Neighbourhood) (exponent : Int) : Option Decimal :=
  let below := q.num.natAbs * Nat.pow 10 (-exponent).toNat / (q.den * Nat.pow 10 exponent.toNat)
  let down : Decimal := ⟨below, exponent⟩
  let up : Decimal := ⟨below + 1, exponent⟩
  match n.holds down.value, n.holds up.value with
  | false, false => none
  | true, false => some down
  | false, true => some up
  | true, true =>
    let left := q - down.value
    let right := up.value - q
    if left < right then some down
    else if right < left then some up
    else some (if below % 2 = 0 then down else up)

/-- Grids from coarse to fine. Seventeen digits always suffice, so the last grid is not tested. -/
def onFirstGrid (q : Rat) (n : Neighbourhood) (order : Int) : Nat → Decimal
  | 0 =>
    let exponent := order - 16
    ⟨nearestEven (q.num.natAbs * Nat.pow 10 (-exponent).toNat) (q.den * Nat.pow 10 exponent.toNat),
      exponent⟩
  | finer + 1 =>
    match nearestOnGrid q n (order - (16 - (finer + 1 : Nat))) with
    | some d => d
    | none => onFirstGrid q n order finer

def shortest (q : Rat) : Decimal :=
  (onFirstGrid q (neighbourhood q) (decimalOrder q) 16).strip

namespace Decimal

def zeros (n : Nat) : Text := List.replicate n 48

def positional (d : Decimal) : Text :=
  let digits := Text.ofNat d.digits
  let whole := digits.length + d.exponent
  if 0 ≤ d.exponent then digits ++ zeros d.exponent.toNat ++ ascii ['.', '0']
  else if 0 < whole then digits.take whole.toNat ++ ascii ['.'] ++ digits.drop whole.toNat
  else ascii ['0', '.'] ++ zeros (-whole).toNat ++ digits

def scientific (d : Decimal) : Text :=
  let digits := Text.ofNat d.digits
  let power := Text.ofNat d.order.natAbs
  digits.take 1
    ++ (if digits.length = 1 then [] else ascii ['.'] ++ digits.drop 1)
    ++ ascii ['e', if d.order < 0 then '-' else '+']
    ++ zeros (2 - power.length) ++ power

end Decimal

/-- From a ten-thousandth up to ten to the sixteenth no exponent is written. -/
def writtenOut (q : Rat) : Bool := mkRat 1 10000 ≤ q && q < mkRat 10000000000000000 1

def text (x : Binary64) : Text :=
  let sign := if x.negative then ascii ['-'] else []
  match x with
  | .nan => ascii ['n', 'a', 'n']
  | .infinite _ => sign ++ ascii ['i', 'n', 'f']
  | .zero _ => sign ++ ascii ['0', '.', '0']
  | .finite q =>
    let d := shortest q.abs
    sign ++ if writtenOut q.abs then d.positional else d.scientific

end DiceFormula.Binary64
