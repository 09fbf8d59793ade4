/-! Floating point numbers with 53 significant bits. Every operation computes its exact rational
result and rounds it once: to the nearest multiple of the spacing at that magnitude, a half to the
even neighbour. -/
namespace DiceFormula

/-- A finite value is never zero: a zero has a sign of its own. -/
inductive Binary64
  | nan
  | infinite (negative : Bool)
  | zero (negative : Bool)
  | finite (value : Rat)
deriving DecidableEq

namespace Binary64

/-- The quotient rounded to an integer, a half to the even neighbour. -/
def nearestEven (num den : Nat) : Nat :=
  let down := num / den
  if 2 * (num % den) < den then down
  else if den < 2 * (num % den) then down + 1
  else down + down % 2

def exponent (q : Rat) : Int :=
  let guess : Int := q.num.natAbs.log2 - q.den.log2
  if q.den <<< guess.toNat ≤ q.num.natAbs <<< (-guess).toNat then guess else guess - 1

def spacing (q : Rat) : Int := max (exponent q - 52) (-1074)

def significand (q : Rat) : Nat :=
  let unit := spacing q
  nearestEven (q.num.natAbs <<< (-unit).toNat) (q.den <<< unit.toNat)

def scaled (n : Nat) (power : Int) : Rat := mkRat (n <<< power.toNat : Nat) (1 <<< (-power).toNat)

def round (q : Rat) : Binary64 :=
  if q = 0 then .zero false
  else
    let magnitude := scaled (significand q) (spacing q)
    if magnitude = 0 then .zero (q < 0)
    else if scaled 1 1024 ≤ magnitude then .infinite (q < 0)
    else .finite (if q < 0 then -magnitude else magnitude)

def ofInt (n : Int) : Binary64 := round n

def negative : Binary64 → Bool
  | .nan => false
  | .infinite s => s
  | .zero s => s
  | .finite q => q < 0

def isNaN : Binary64 → Bool
  | .nan => true
  | _ => false

def isZero : Binary64 → Bool
  | .zero _ => true
  | _ => false

/-- Where a number stands: infinities lie outside all rationals, and a zero has no side. -/
def place : Binary64 → Option (Int × Rat)
  | .nan => none
  | .infinite s => some (if s then -1 else 1, 0)
  | .zero _ => some (0, 0)
  | .finite q => some (0, q)

def lt (x y : Binary64) : Bool :=
  match x.place, y.place with
  | some (s, p), some (t, q) => s < t || s == t && p < q
  | _, _ => false

def same (x y : Binary64) : Bool :=
  match x.place, y.place with
  | some p, some q => p == q
  | _, _ => false

def neg : Binary64 → Binary64
  | .nan => .nan
  | .infinite s => .infinite !s
  | .zero s => .zero !s
  | .finite q => .finite (-q)

def abs (x : Binary64) : Binary64 := if x.negative then x.neg else x

def add : Binary64 → Binary64 → Binary64
  | .nan, _ => .nan
  | _, .nan => .nan
  | .infinite s, .infinite t => if s = t then .infinite s else .nan
  | .infinite s, _ => .infinite s
  | _, .infinite t => .infinite t
  | .zero s, .zero t => .zero (s && t)
  | .zero _, y => y
  | x, .zero _ => x
  | .finite p, .finite q => round (p + q)

def sub (x y : Binary64) : Binary64 := x.add y.neg

def mul (x y : Binary64) : Binary64 :=
  match x, y with
  | .finite p, .finite q => round (p * q)
  | .nan, _ => .nan
  | _, .nan => .nan
  | .infinite _, .zero _ => .nan
  | .zero _, .infinite _ => .nan
  | .infinite _, _ => .infinite (x.negative != y.negative)
  | _, .infinite _ => .infinite (x.negative != y.negative)
  | _, _ => .zero (x.negative != y.negative)

def div (x y : Binary64) : Binary64 :=
  match x, y with
  | .finite p, .finite q => round (p / q)
  | .nan, _ => .nan
  | _, .nan => .nan
  | .infinite _, .infinite _ => .nan
  | .zero _, .zero _ => .nan
  | .infinite _, _ => .infinite (x.negative != y.negative)
  | _, .zero _ => .infinite (x.negative != y.negative)
  | _, _ => .zero (x.negative != y.negative)

def truncate : Binary64 → Int
  | .finite q => q.num.tdiv q.den
  | _ => 0

def rem : Binary64 → Binary64 → Binary64
  | .finite p, .finite q =>
    let rest := p - q * ((p / q).num.tdiv (p / q).den)
    if rest = 0 then .zero (p < 0) else .finite rest
  | .finite p, .infinite _ => .finite p
  | .zero s, .finite _ => .zero s
  | .zero s, .infinite _ => .zero s
  | _, _ => .nan

def toBits (x : Binary64) : UInt64 :=
  let sign : Nat := if x.negative then 1 <<< 63 else 0
  let magnitude : Nat :=
    match x with
    | .nan => 4095 <<< 51
    | .infinite _ => 2047 <<< 52
    | .zero _ => 0
    | .finite q => ((spacing q + 1074).toNat <<< 52) + significand q
  UInt64.ofNat (sign + magnitude)

def ofBits (word : UInt64) : Binary64 :=
  let sign : Bool := 1 <<< 63 ≤ word.toNat
  let high : Nat := (word.toNat >>> 52) % 2048
  let low : Nat := word.toNat % (1 <<< 52)
  if high = 2047 then
    if low = 0 then .infinite sign else .nan
  else
    let magnitude :=
      if high = 0 then scaled low (-1074) else scaled ((1 <<< 52) + low) ((high : Int) - 1075)
    if magnitude = 0 then .zero sign else .finite (if sign then -magnitude else magnitude)

/-- Powers are the machine's own: they are not always the nearest number to the exact power. -/
def pow (x y : Binary64) : Binary64 :=
  ofBits (Float.pow (Float.ofBits x.toBits) (Float.ofBits y.toBits)).toBits

end Binary64

end DiceFormula
