import DiceFormula.Roll.Basic

/-! Choosing among the values of a roll: keeping the lowest or the highest, raising or lowering
values to a bound, and counting those that reach a threshold. What is not kept is put aside. -/
namespace DiceFormula.Roll

def keepLowest (r : Roll) (count : Int) : Roll :=
  let kept := count.toNat
  { r with values := r.values.take kept, discards := r.discards ++ r.values.drop kept }

def keepHighest (r : Roll) (count : Int) : Roll :=
  let dropped := r.values.length - count.toNat
  { r with values := r.values.drop dropped, discards := r.discards ++ r.values.take dropped }

def clampWhere (r : Roll) (fails : Number → Bool) (bound : Number) : Roll :=
  settle { r with
    values := r.values.map fun a => if fails a then bound else a
    discards := r.discards ++ r.values.filter fails }

def raiseTo (r : Roll) (bound : Number) : Roll := r.clampWhere (·.lt bound) bound

def lowerTo (r : Roll) (bound : Number) : Roll := r.clampWhere (bound.lt ·) bound

/-- Every value is put aside for one or zero, as it passes or not. -/
def judge (r : Roll) (passes : Number → Bool) : Roll :=
  ((ofValues (r.values.map fun a => .ofBool (passes a)) r.die).addDiscards r.discards).addDiscards
    r.values

def atLeast (r : Roll) (threshold : Int) : Roll := r.judge ((Number.int threshold).le ·)

def atMost (r : Roll) (threshold : Int) : Roll := r.judge (·.le (.int threshold))

end DiceFormula.Roll
