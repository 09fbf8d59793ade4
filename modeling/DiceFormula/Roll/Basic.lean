import DiceFormula.Die

/-! The result of throwing dice: values in ascending order, and the values that were put aside.
While sorting is suspended the values keep their places. -/
namespace DiceFormula

structure Roll where
  values : List Number
  die : Die
  discards : List Number
  suspended : Bool
deriving DecidableEq

namespace Roll

/-- Values that are equal, as an integer and a real can be, stay in the order they came in. This is
a choice: which of them stands first is left open. -/
def sort (values : List Number) : List Number := values.mergeSort Number.le

def settle (r : Roll) : Roll := if r.suspended then r else { r with values := sort r.values }

def ofValues (values : List Number) (die : Die) : Roll := ⟨sort values, die, [], false⟩

def addDiscards (r : Roll) (removed : List Number) : Roll :=
  { r with discards := r.discards ++ removed }

def contains (r : Roll) (a : Number) : Bool := r.values.any a.same

/-- A roll is written `[d6: 1, 4]`, or `[d6: 4; (1)]` when something was put aside. -/
def text (r : Roll) : Text :=
  ascii ['[', 'd'] ++ r.die.text ++ ascii [':', ' '] ++ Number.listText r.values
    ++ (if r.discards.isEmpty then []
        else ascii [';', ' ', '('] ++ Number.listText r.discards ++ ascii [')'])
    ++ ascii [']']

def same (r s : Roll) : Bool :=
  Number.sameList r.values s.values && r.die.same s.die && Number.sameList r.discards s.discards

@[simp] theorem settle_discards (r : Roll) : r.settle.discards = r.discards := by
  unfold settle
  split <;> rfl

@[simp] theorem settle_die (r : Roll) : r.settle.die = r.die := by
  unfold settle
  split <;> rfl

@[simp] theorem settle_suspended (r : Roll) : r.settle.suspended = r.suspended := by
  unfold settle
  split <;> rfl

theorem settle_perm (r : Roll) : r.settle.values.Perm r.values := by
  unfold settle
  split
  · exact List.Perm.refl _
  · exact List.mergeSort_perm _ _

end Roll

end DiceFormula
