import DiceFormula.Chance.Source

/-! A linear congruential source of 64 bits, of which each draw uses the upper 31. -/
namespace DiceFormula.Congruential

def step (state : UInt64) : UInt64 := state * 6364136223846793005 + 1442695040888963407

def output (state : UInt64) : Nat := (state >>> 33).toNat

def uniform (low high : Int) (state : UInt64) : Int × UInt64 :=
  let next := step state
  let span := (high - low + 1) % 18446744073709551616
  (low + if span = 0 then (output next : Int) else output next % span, next)

def pickBelow (count : Nat) (state : UInt64) : Except Fault (Fin count) × UInt64 :=
  if h : 0 < count then
    let next := step state
    (.ok ⟨output next % count, Nat.mod_lt _ h⟩, next)
  else (.error .emptyChoice, state)

def source (patience : Nat) : Source UInt64 where
  uniformInt low high := fun s =>
    let (n, t) := uniform low high s
    (.ok n, t)
  pickIndex count := pickBelow count
  patience := patience

end DiceFormula.Congruential
