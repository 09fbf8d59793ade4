import DiceFormula.Operator.Apply

/-! Keeping the highest or the lowest values of a roll. The values stand in ascending order, so that
the ones kept are one end of the list and those put aside the other. -/
namespace DiceFormula

namespace End

def opposite : End → End
  | .low => .high
  | .high => .low

@[simp] theorem opposite_opposite (side : End) : side.opposite.opposite = side := by
  cases side <;> rfl

def prefers (side : End) (a b : Number) : Bool :=
  match side with
  | .low => a.le b
  | .high => b.le a

end End

namespace Roll

def keep (r : Roll) (side : End) (count : Int) : Roll :=
  match side with
  | .low => r.keepLowest count
  | .high => r.keepHighest count

def newlyAside (r changed : Roll) : List Number := changed.discards.drop r.discards.length

theorem keepDice_eq (r : Roll) (side : End) (count : Int) :
    Operator.keepDice side (.roll r) (.number (.int count)) = .ok (r.keep side count) := by
  cases side <;> rfl

variable (r : Roll) (side : End) (j k : Int)

theorem discards_keep : (r.keep side k).discards = r.discards ++ r.newlyAside (r.keep side k) := by
  cases side <;> simp [keep, keepLowest, keepHighest, newlyAside]

theorem newlyAside_keepLowest : r.newlyAside (r.keep .low k) = r.values.drop k.toNat := by
  simp [keep, keepLowest, newlyAside]

theorem newlyAside_keepHighest :
    r.newlyAside (r.keep .high k) = r.values.take (r.values.length - k.toNat) := by
  simp [keep, keepHighest, newlyAside]

theorem length_keep : ((r.keep side k).values.length : Int) = min (r.values.length : Int)
    (max k 0) := by
  cases side with
  | low =>
    rw [keep, keepLowest, List.length_take]
    omega
  | high =>
    rw [keep, keepHighest, List.length_drop]
    omega

theorem le_of_cut {r : Roll} (h : r.values.Pairwise fun a b => a.le b = true) (n : Nat)
    {a b : Number} (ha : a ∈ r.values.take n) (hb : b ∈ r.values.drop n) : a.le b = true := by
  rw [← List.take_append_drop n r.values] at h
  exact (List.pairwise_append.mp h).2.2 a ha b hb

theorem prefers_keep {r : Roll} (h : r.values.Pairwise fun a b => a.le b = true)
    (side : End) (k : Int)
    {a b : Number} (ha : a ∈ (r.keep side k).values) (hb : b ∈ r.newlyAside (r.keep side k)) :
    side.prefers a b = true := by
  cases side with
  | low =>
    rw [newlyAside_keepLowest] at hb
    exact le_of_cut h _ ha hb
  | high =>
    rw [newlyAside_keepHighest] at hb
    exact le_of_cut h _ hb ha

theorem keep_opposite (h0 : 0 ≤ k) (hk : k ≤ r.values.length) :
    (r.keep side k).values = r.newlyAside (r.keep side.opposite (r.values.length - k)) := by
  cases side with
  | low =>
    have hcut : r.values.length - (r.values.length - k).toNat = k.toNat := by omega
    rw [End.opposite, newlyAside_keepHighest, hcut]
    rfl
  | high =>
    have hcut : (r.values.length - k).toNat = r.values.length - k.toNat := by omega
    rw [End.opposite, newlyAside_keepLowest, hcut]
    rfl

theorem keep_keep : ((r.keep side k).keep side j).values = (r.keep side (min j k)).values := by
  cases side with
  | low =>
    have hmin : min j.toNat k.toNat = (min j k).toNat := by omega
    simp only [keep, keepLowest, List.take_take, hmin]
  | high =>
    simp only [keep, keepHighest, List.drop_drop, List.length_drop]
    congr 1
    omega

/-- Keeping so many values at one end of a roll in order. None of those put aside stands further
towards that end, the rest is what the opposite end keeps, and of two counts in a row the smaller
one decides. -/
theorem keep_complementary (h : r.values.Pairwise fun a b => a.le b = true) :
    Operator.keepDice side (.roll r) (.number (.int k)) = .ok (r.keep side k) ∧
      ((r.keep side k).values.length : Int) = min (r.values.length : Int) (max k 0) ∧
      (r.keep side k).discards = r.discards ++ r.newlyAside (r.keep side k) ∧
      (∀ a ∈ (r.keep side k).values, ∀ b ∈ r.newlyAside (r.keep side k), side.prefers a b = true) ∧
      (0 ≤ k → k ≤ r.values.length →
        (r.keep side k).values = r.newlyAside (r.keep side.opposite (r.values.length - k)) ∧
        r.newlyAside (r.keep side k) = (r.keep side.opposite (r.values.length - k)).values) ∧
      ((r.keep side k).keep side j).values = (r.keep side (min j k)).values := by
  refine ⟨keepDice_eq r side k, length_keep r side k, discards_keep r side k,
    fun a ha b hb => prefers_keep h side k ha hb, fun h0 hk => ⟨keep_opposite r side k h0 hk, ?_⟩,
    keep_keep r side j k⟩
  -- What one end puts aside is what it puts aside for the opposite of its opposite.
  have hother := keep_opposite r side.opposite (r.values.length - k) (by omega) (by omega)
  rw [Int.sub_sub_self, End.opposite_opposite] at hother
  exact hother.symm

theorem keep_complementary_tie :
    let r : Roll := ⟨[.int 1, .int 4, .int 4, .int 6], .sides 6, [.int 2], false⟩
    (r.keep .high 2).values = [.int 4, .int 6] ∧ r.newlyAside (r.keep .high 2) = [.int 1, .int 4] ∧
      (∀ a ∈ (r.keep .high 2).values, ∀ b ∈ r.newlyAside (r.keep .high 2), b.le a = true) ∧
      (r.keep .high 2).values = r.newlyAside (r.keep .low 2) ∧
      ((r.keep .high 2).keep .high 3).values = (r.keep .high 2).values := by
  intro r
  obtain ⟨-, -, -, hprefers, hopposite, hkeep⟩ := keep_complementary r .high 3 2 (by decide)
  exact ⟨rfl, rfl, hprefers, (hopposite (by decide) (by decide)).1, hkeep⟩

end Roll

end DiceFormula
