import DiceFormula.Chance.Source

/-! A source that recites: prepared answers in order, then one answer for ever or none. It ignores
the bounds of a request for an integer, and lowers a place to the last one there is. -/
namespace DiceFormula

structure Script where
  answers : List Int
  thereafter : Option Int
  picks : List Nat
  pickThereafter : Nat
deriving DecidableEq

namespace Script

def steady (answer : Int) : Script := ⟨[], some answer, [], 0⟩

def nextAnswer (s : Script) : Except Fault Int × Script :=
  match s.answers, s.thereafter with
  | n :: rest, _ => (.ok n, { s with answers := rest })
  | [], some n => (.ok n, s)
  | [], none => (.error .scriptEnded, s)

def nextPick (s : Script) : Nat × Script :=
  match s.picks with
  | n :: rest => (n, { s with picks := rest })
  | [] => (s.pickThereafter, s)

def pickBelow (count : Nat) (s : Script) : Except Fault (Fin count) × Script :=
  if h : 0 < count then
    let (n, rest) := s.nextPick
    (.ok ⟨min n (count - 1), by omega⟩, rest)
  else (.error .emptyChoice, s)

def source (patience : Nat) : Source Script where
  uniformInt _ _ := nextAnswer
  pickIndex count := pickBelow count
  patience := patience

end Script

end DiceFormula
