import DiceFormula.Tree.Join

/-! A shelf of trees with names. A tree can take another one from the shelf into itself, which
leaves the other's place empty; a tree that takes itself in finds nothing there any more. -/
namespace DiceFormula

abbrev Shelf : Type := List (Text × Tree)

namespace Shelf

/-- Why a step on a shelf is refused: nothing has that name, or the trees do not allow it. -/
inductive Refusal
  | noTree (name : Text)
  | fault (fault : Fault)

def find? (shelf : Shelf) (name : Text) : Option Tree :=
  match shelf with
  | [] => none
  | (other, t) :: rest => if other = name then some t else find? rest name

def get (shelf : Shelf) (name : Text) : Except Refusal Tree :=
  match shelf.find? name with
  | some t => .ok t
  | none => .error (.noTree name)

def put (shelf : Shelf) (name : Text) (t : Tree) : Shelf :=
  match shelf with
  | [] => [(name, t)]
  | (other, u) :: rest =>
    if other = name then (name, t) :: rest else (other, u) :: put rest name t

def absorb (shelf : Shelf) (op : Operator) (name other : Text) : Except Refusal Shelf := do
  let t ← shelf.get name
  let u ← shelf.get other
  match Tree.combine op t (if other = name then .empty else u) with
  | .ok joined => return (shelf.put other .empty).put name joined
  | .error fault => throw (.fault fault)

theorem get_eq_ok_iff {shelf : Shelf} {name : Text} {t : Tree} :
    shelf.get name = .ok t ↔ shelf.find? name = some t := by
  unfold get
  cases shelf.find? name <;> simp

@[simp] theorem find?_put_self (shelf : Shelf) (name : Text) (t : Tree) :
    (shelf.put name t).find? name = some t := by
  induction shelf with
  | nil => simp [put, find?]
  | cons entry rest ih =>
    obtain ⟨other, u⟩ := entry
    by_cases h : other = name
    · simp [put, find?, h]
    · simpa [put, find?, h] using ih

theorem find?_put_of_ne (shelf : Shelf) {name other : Text} (t : Tree) (h : other ≠ name) :
    (shelf.put name t).find? other = shelf.find? other := by
  induction shelf with
  | nil => simp [put, find?, h.symm]
  | cons entry rest ih =>
    obtain ⟨first, u⟩ := entry
    by_cases hf : first = name
    · simp [put, find?, hf, h.symm]
    · by_cases ho : first = other
      · simp [put, find?, ho, h]
      · simpa [put, find?, hf, ho] using ih

end Shelf

end DiceFormula
