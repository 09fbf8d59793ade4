import DiceFormula.Chance.Source
import DiceFormula.Number.Arithmetic

/-! Changes to a roll, value by value. Taking values away keeps the order of the others; everything
else puts the values in order again, unless sorting is suspended. -/
namespace DiceFormula.Roll

def hasRange (r : Roll) (first last : Nat) : Bool := first ≤ last && last ≤ r.values.length

def range (r : Roll) (first last : Nat) : List Number := (r.values.take last).drop first

/-- A change made to a roll in place. What was done before a fault stays done. -/
abbrev Edit (α : Type) : Type := Rolling Roll Fault α

namespace Edit

def modify (change : Roll → Roll) : Edit Unit := fun r => (.ok (), change r)

def check (passes : Roll → Bool) (fault : Fault) : Edit Unit := fun r =>
  if passes r then (.ok (), r) else (.error fault, r)

def checkIndex (index : Nat) : Edit Unit := check (index < ·.values.length) (.indexOutside index)

def checkRange (first last : Nat) : Edit Unit :=
  check (·.hasRange first last) (.rangeOutside first last)

def putAside (first last : Nat) : Edit Unit :=
  modify fun r => { r with discards := r.discards ++ r.range first last }

def splice (first last : Nat) (placed : List Number) : Edit Unit :=
  modify fun r => { r with values := r.values.take first ++ placed ++ r.values.drop last }

def value (index : Nat) : Edit Number := fun r =>
  match r.values[index]? with
  | some a => (.ok a, r)
  | none => (.error (.indexOutside index), r)

def set (index : Nat) (a : Number) : Edit Unit := do
  checkIndex index
  splice index (index + 1) [a]
  modify settle

def erase (index : Nat) : Edit Unit := do
  checkIndex index
  splice index (index + 1) []

def discard (index : Nat) : Edit Unit := do
  checkIndex index
  putAside index (index + 1)
  splice index (index + 1) []

def discardRange (first last : Nat) : Edit Unit := do
  checkRange first last
  putAside first last
  splice first last []

def replace (index : Nat) (a : Number) : Edit Unit := do
  checkIndex index
  putAside index (index + 1)
  splice index (index + 1) [a]
  modify settle

def replaceRange (first last : Nat) (replacement : List Number) : Edit Unit := do
  checkRange first last
  check (fun _ => last - first == replacement.length) .lengthsDiffer
  putAside first last
  splice first (first + replacement.length) replacement
  modify settle

end Edit

def edited (r : Roll) (change : Edit Unit) : Except Fault Roll :=
  match change r with
  | (.ok (), changed) => .ok changed
  | (.error fault, _) => .error fault

def at? (r : Roll) (index : Nat) : Except Fault Number := (Edit.value index r).1

def setValues (r : Roll) (values : List Number) : Roll := settle { r with values := values }

def set (r : Roll) (index : Nat) (a : Number) : Except Fault Roll := r.edited (.set index a)

def erase (r : Roll) (index : Nat) : Except Fault Roll := r.edited (.erase index)

def discardRange (r : Roll) (first last : Nat) : Except Fault Roll :=
  r.edited (.discardRange first last)

def discard (r : Roll) (index : Nat) : Except Fault Roll := r.edited (.discard index)

def replaceRange (r : Roll) (first last : Nat) (replacement : List Number) : Except Fault Roll :=
  r.edited (.replaceRange first last replacement)

def replace (r : Roll) (index : Nat) (a : Number) : Except Fault Roll := r.edited (.replace index a)

def suspend (r : Roll) : Roll × Bool := ({ r with suspended := true }, r.suspended)

def resume (r : Roll) (before : Bool) : Roll := settle { r with suspended := before }

def sum (r : Roll) : Except Fault Number := Number.sum r.values

end DiceFormula.Roll

namespace DiceFormula.Value

def total : Value → Except Fault Number
  | .number a => .ok a
  | .faces values => Number.sum values
  | .roll r => r.sum

end DiceFormula.Value
