import DiceFormula.Binary64.Basic
import DiceFormula.Text

/-! Written real numbers: an optional sign, then decimal digits with an optional point and exponent,
or hexadecimal digits after `0x` with an optional point and binary exponent. -/
namespace DiceFormula

/-- The number `digits * base ^ exponent`, negated if so signed. The base is ten or two. -/
structure RealLiteral where
  negative : Bool
  digits : Nat
  base : Nat
  exponent : Int
deriving DecidableEq

namespace RealLiteral

def hexDigit? (b : UInt8) : Option Nat :=
  if Text.isDigit b then some (b.toNat - 48)
  else if 65 ≤ b && b ≤ 70 then some (b.toNat - 55)
  else if 97 ≤ b && b ≤ 102 then some (b.toNat - 87)
  else none

def isHexDigit (b : UInt8) : Bool := (hexDigit? b).isSome

def hexValue (digits : Text) : Nat :=
  digits.foldl (fun n b => 16 * n + (hexDigit? b).getD 0) 0

def sign (t : Text) : Bool × Text :=
  match t with
  | b :: rest =>
    if b = '-'.toUInt8 then (true, rest)
    else if b = '+'.toUInt8 then (false, rest)
    else (false, t)
  | [] => (false, [])

def mantissa (isDigit : UInt8 → Bool) (t : Text) : Text × Text × Text :=
  let whole := t.takeWhile isDigit
  match t.dropWhile isDigit with
  | b :: rest =>
    if b = '.'.toUInt8 then (whole, rest.takeWhile isDigit, rest.dropWhile isDigit)
    else (whole, [], b :: rest)
  | [] => (whole, [], [])

def exponent? (mark : UInt8) (t : Text) : Option Int :=
  match t with
  | [] => some 0
  | b :: rest =>
    let (negative, digits) := sign rest
    if Text.lower [b] = [mark] && !digits.isEmpty && digits.all Text.isDigit then
      some (if negative then -(Text.value digits) else Text.value digits)
    else none

def parse? (t : Text) : Option RealLiteral :=
  let (negative, body) := sign t
  if Text.lower (body.take 2) = ascii ['0', 'x'] then
    let (whole, fraction, rest) := mantissa isHexDigit (body.drop 2)
    if whole.isEmpty && fraction.isEmpty then none
    else (exponent? 'p'.toUInt8 rest).map fun e =>
      ⟨negative, hexValue (whole ++ fraction), 2, e - 4 * fraction.length⟩
  else
    let (whole, fraction, rest) := mantissa Text.isDigit body
    if whole.isEmpty && fraction.isEmpty then none
    else (exponent? 'e'.toUInt8 rest).map fun e =>
      ⟨negative, Text.value (whole ++ fraction), 10, e - fraction.length⟩

/-- The base to this power is near the number. A binary digit has 0.30103 of the weight of a decimal
one. -/
def order (l : RealLiteral) : Int :=
  (if l.base = 2 then l.digits.log2 else l.digits.log2 * 30103 / 100000 : Nat) + l.exponent

def orderBound : Int := 1200

def exact (l : RealLiteral) : Rat :=
  mkRat (l.digits * Nat.pow l.base l.exponent.toNat : Nat) (Nat.pow l.base (-l.exponent).toNat)

def nearest (l : RealLiteral) : Binary64 :=
  let magnitude : Binary64 :=
    if l.digits = 0 then .zero false
    else if orderBound < l.order then .infinite false
    else if l.order < -orderBound then .zero false
    else Binary64.round l.exact
  if l.negative then magnitude.neg else magnitude

def smallestNormal : Rat := mkRat ((1 <<< 54) - 1 : Nat) (1 <<< 1076)

/-- Neither too large for a finite number nor so small that digits are lost. -/
def inRange (l : RealLiteral) : Bool :=
  match l.nearest with
  | .finite q => smallestNormal ≤ l.exact || q.abs == l.exact
  | .zero _ => l.digits == 0
  | _ => false

end RealLiteral

end DiceFormula
