import DiceFormula.Chance.Source
import DiceFormula.Roll.Edit

/-! Throwing dice: at random, twice as many for a critical hit, or all at their average or maximum
without chance. -/
namespace DiceFormula

variable {σ : Type}

namespace Die

def check : Die → Except Fault Unit
  | .faces [] => .error .noFaces
  | .faces _ => .ok ()
  | .sides count => if count < 1 then .error (.noSides count) else .ok ()

def minimum (d : Die) : Except Fault Number :=
  match d.minimum? with
  | some a => .ok a
  | none => .error .noFaces

def maximum (d : Die) : Except Fault Number :=
  match d.maximum? with
  | some a => .ok a
  | none => .error .noFaces

/-- The average of the faces, or of the numbers from one to the count of sides. Nothing guards the
sum of one and the count: it wraps where it is no word. -/
def averageTraced : Die → Traced (Except Fault Number)
  | .faces values => return do (← Number.sum values).div (.int values.length)
  | .sides count => do
    let ends ← Traced.word (count + 1)
    return Number.div (.int (Word.wrapped ends)) (.int 2)

def average (d : Die) : Except Fault Number := d.averageTraced.value

end Die

namespace Source

def throwDie (source : Source σ) (die : Die) : Rolling σ Fault Number := do
  die.check
  match die with
  | .faces values => source.choice values
  | .sides count => return .int (← source.uniformInt 1 count)

def throwDice (source : Source σ) (die : Die) :
    Nat → List Number → σ → Except Fault (List Number) × σ
  | 0, thrown, s => (.ok thrown.reverse, s)
  | count + 1, thrown, s =>
    match source.throwDie die s with
    | (.ok a, t) => throwDice source die count (a :: thrown) t
    | (.error fault, t) => (.error fault, t)

end Source

namespace Roll

/-- A count of dice: none when negative, and not too many. -/
def diceCount (count : Int) : Except Fault Nat :=
  if Fault.diceLimit < count then .error (.tooManyDice count) else .ok count.toNat

def throwMany (source : Source σ) (count : Nat) (die : Die) : Rolling σ Fault Roll := do
  die.check
  let values ← (source.throwDice die count [] : Rolling σ Fault (List Number))
  return ofValues values die

def plain (source : Source σ) (count : Int) (die : Die) : Rolling σ Fault Roll := do
  throwMany source (← diceCount count) die

def critical (source : Source σ) (count : Int) (die : Die) : Rolling σ Fault Roll := do
  throwMany source (2 * (← diceCount count)) die

def maximum (count : Int) (die : Die) : Except Fault Roll := do
  let dice ← diceCount count
  die.check
  return ofValues (List.replicate dice (← die.maximum)) die

def average (count : Int) (die : Die) : Except Fault Roll := do
  let dice ← diceCount count
  die.check
  return ofValues (List.replicate dice (← die.average)) die

end Roll

end DiceFormula
