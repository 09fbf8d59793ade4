import DiceFormula.Roll.Throw

/-! Throwing values of a roll again. The values are visited in their order; each one thrown again is
put aside, and the values are sorted when all were visited. -/
namespace DiceFormula

variable {σ : Type}

def Trigger.fires (trigger : Trigger) (target a : Number) : Bool :=
  match trigger with
  | .equal => a.same target
  | .below => a.lt target
  | .above => target.lt a

structure Visited where
  kept : List Number
  aside : List Number

namespace Visited

def keep (v : Visited) (a : Number) : Visited := { v with kept := a :: v.kept }

def putAside (v : Visited) (a : Number) : Visited := { v with aside := a :: v.aside }

end Visited

namespace Source

def rerollOnce (source : Source σ) (die : Die) (fires : Number → Bool) :
    List Number → Visited → σ → Except Fault Visited × σ
  | [], v, s => (.ok v, s)
  | a :: rest, v, s =>
    if fires a then
      match source.throwDie die s with
      | (.ok b, t) => rerollOnce source die fires rest ((v.putAside a).keep b) t
      | (.error fault, t) => (.error fault, t)
    else rerollOnce source die fires rest (v.keep a) s

def rerollValue (source : Source σ) (die : Die) (fires : Number → Bool) :
    Nat → Number → Visited → σ → Except Fault Visited × σ
  | 0, a, v, s => if fires a then (.error .patienceEnded, s) else (.ok (v.keep a), s)
  | trials + 1, a, v, s =>
    if fires a then
      match source.throwDie die s with
      | (.ok b, t) => rerollValue source die fires trials b (v.putAside a) t
      | (.error fault, t) => (.error fault, t)
    else (.ok (v.keep a), s)

def rerollUntil (source : Source σ) (die : Die) (fires : Number → Bool) :
    List Number → Visited → σ → Except Fault Visited × σ
  | [], v, s => (.ok v, s)
  | a :: rest, v, s =>
    match source.rerollValue die fires source.patience a v s with
    | (.ok v, t) => rerollUntil source die fires rest v t
    | (.error fault, t) => (.error fault, t)

end Source

namespace Roll

def afterVisit (r : Roll) (v : Visited) : Roll :=
  settle { r with values := v.kept.reverse, discards := r.discards ++ v.aside.reverse }

def rerollOnce (source : Source σ) (r : Roll) (trigger : Trigger) (target : Number) :
    Rolling σ Fault Roll := do
  let v ← (source.rerollOnce r.die (trigger.fires target) r.values ⟨[], []⟩ :
    Rolling σ Fault Visited)
  return r.afterVisit v

/-- Whether no throw of the die would ever be kept. -/
def endless (die : Die) (trigger : Trigger) (target : Number) : Except Fault Bool :=
  match trigger with
  | .equal => return (← die.minimum).same target && (← die.maximum).same target
  | .above => return target.lt (← die.minimum)
  | .below => return (← die.maximum).lt target

def rerollUntil (source : Source σ) (r : Roll) (trigger : Trigger) (target : Number) :
    Rolling σ Fault Roll := do
  r.die.check
  if ← endless r.die trigger target then
    Rolling.fail (.endlessReroll trigger r.die target)
  else
    let v ← (source.rerollUntil r.die (trigger.fires target) r.values ⟨[], []⟩ :
      Rolling σ Fault Visited)
    return r.afterVisit v

end Roll

end DiceFormula
