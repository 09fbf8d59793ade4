import DiceFormula.Fault

/-! Sources of chance. A computation that draws threads the state of a source, and what was drawn
stays drawn when the computation fails. -/
namespace DiceFormula

variable {σ ε α β : Type}

def Rolling (σ ε α : Type) : Type := σ → Except ε α × σ

namespace Rolling

@[inline] def bind (x : Rolling σ ε α) (f : α → Rolling σ ε β) : Rolling σ ε β := fun s =>
  match x s with
  | (.ok a, t) => f a t
  | (.error e, t) => (.error e, t)

@[always_inline]
instance : Monad (Rolling σ ε) where
  pure a := fun s => (.ok a, s)
  bind := bind

@[inline] def of (result : Except ε α) : Rolling σ ε α := fun s => (result, s)

def fail (e : ε) : Rolling σ ε α := of (.error e)

instance : MonadLift (Except ε) (Rolling σ ε) := ⟨of⟩

@[simp] theorem pure_apply (a : α) (s : σ) : (pure a : Rolling σ ε α) s = (.ok a, s) := rfl

theorem bind_apply (x : Rolling σ ε α) (f : α → Rolling σ ε β) (s : σ) :
    (x >>= f) s = match x s with
      | (.ok a, t) => f a t
      | (.error e, t) => (.error e, t) := rfl

end Rolling

/-- A source answers with an integer between two bounds, or with one of so many places. Its patience
is the number of unwelcome answers that a request for a welcome one will bear. -/
structure Source (σ : Type) where
  uniformInt (low high : Int) : Rolling σ Fault Int
  pickIndex (count : Nat) : Rolling σ Fault (Fin count)
  patience : Nat

inductive Draw
  | uniform (low high result : Int)
  | pick (count index : Nat)
deriving DecidableEq

namespace Draw

/-- A draw of four from one to six is written `1:6=4`, one of the first of three places `#3=0`. -/
def text : Draw → Text
  | .uniform low high result =>
    Text.ofInt low ++ ascii [':'] ++ Text.ofInt high ++ ascii ['='] ++ Text.ofInt result
  | .pick count index => ascii ['#'] ++ Text.ofNat count ++ ascii ['='] ++ Text.ofNat index

end Draw

namespace Source

def choice (source : Source σ) (values : List α) : Rolling σ Fault α :=
  if values.isEmpty then .fail .emptyChoice
  else do
    let i ← source.pickIndex values.length
    return values.get i

def recorded (source : Source σ) : Source (σ × List Draw) where
  uniformInt low high := fun (s, draws) =>
    match source.uniformInt low high s with
    | (.ok n, t) => (.ok n, t, .uniform low high n :: draws)
    | (.error e, t) => (.error e, t, draws)
  pickIndex count := fun (s, draws) =>
    match source.pickIndex count s with
    | (.ok i, t) => (.ok i, t, .pick count i :: draws)
    | (.error e, t) => (.error e, t, draws)
  patience := source.patience

end Source

end DiceFormula
