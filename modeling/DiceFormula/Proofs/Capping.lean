import DiceFormula.Chance.Congruential
import DiceFormula.Chance.Twister

/-! Answers within the bounds of a request. Both sources that draw numbers of their own keep to
them, so that they never show more on a die than it has sides: the congruential one takes a
remainder by the size of the range, and the twister the upper half of a product with it, or words
that it checks. -/
namespace DiceFormula

/-- A die is never answered with more than its number of sides. -/
def Source.Capped {σ : Type} (source : Source σ) : Prop :=
  ∀ sides s n t, 1 ≤ sides → source.uniformInt 1 sides s = (.ok n, t) → n ≤ sides

/-- The answer to a request for an integer stands between its bounds. A place is below the number of
places by its type. -/
def Source.Honest {σ : Type} (source : Source σ) : Prop :=
  ∀ low high s n t, low ≤ high → source.uniformInt low high s = (.ok n, t) → low ≤ n ∧ n ≤ high

theorem Source.Honest.capped {σ : Type} {source : Source σ} (h : source.Honest) : source.Capped :=
  fun sides s n t hsides hdraw => (h 1 sides s n t hsides hdraw).2

namespace Congruential

theorem output_lt (state : UInt64) : output state < 2147483648 := by
  have hstate := UInt64.toNat_lt state
  have hshift : output state = state.toNat / 2 ^ 33 := by
    rw [output, UInt64.toNat_shiftRight, Nat.shiftRight_eq_div_pow]
    rfl
  omega

theorem source_honest (patience : Nat) : (source patience).Honest := by
  intro low high s n t hrange h
  obtain rfl : low + (if (high - low + 1) % 18446744073709551616 = 0 then (output (step s) : Int)
      else output (step s) % ((high - low + 1) % 18446744073709551616)) = n :=
        Except.ok.inj (Prod.mk.inj h).1
  have houtput := output_lt (step s)
  split
  · omega
  · next hspan =>
    have hpositive : 0 < (high - low + 1) % 18446744073709551616 := by omega
    have hrest := Int.emod_lt_of_pos (output (step s)) hpositive
    have hnonneg := Int.emod_nonneg (output (step s)) hspan
    omega

theorem source_capped (patience : Nat) : (source patience).Capped := (source_honest patience).capped

end Congruential

namespace Twister

variable {patience last n : Nat} {t u : Twister}

theorem next_lt (t : Twister) : t.next.1 < wordCount := UInt32.toNat_lt _

theorem next_mul_lt {range : Nat} (hrange : 0 < range) (t : Twister) :
    t.next.1 * range < wordCount * range :=
  Nat.mul_lt_mul_of_pos_right t.next_lt hrange

theorem acceptedProduct_lt {range threshold product accepted : Nat} (hrange : 0 < range)
    (hproduct : product < wordCount * range)
    (h : acceptedProduct range threshold patience product t = (.ok accepted, u)) :
    accepted < wordCount * range := by
  induction patience generalizing product t with
  | zero =>
    rw [acceptedProduct] at h
    split at h
    · cases h
      exact hproduct
    · cases h
  | succ patience ih =>
    rw [acceptedProduct] at h
    split at h
    · cases h
      exact hproduct
    · exact ih (next_mul_lt hrange t) h

theorem below_lt {range : Nat} (hrange : 0 < range) (h : below patience range t = (.ok n, u)) :
    n < range := by
  have hproduct := next_mul_lt hrange t
  dsimp only [below] at h
  split at h
  · cases h
    exact Nat.div_lt_of_lt_mul hproduct
  · split at h
    · next accepted v haccepted =>
      cases h
      exact Nat.div_lt_of_lt_mul (acceptedProduct_lt hrange hproduct haccepted)
    · cases h

theorem upToWord_le (h : upToWord patience last t = (.ok n, u)) : n ≤ last := by
  rw [upToWord] at h
  split at h
  · next hall =>
    have hword : n < wordCount := (Except.ok.inj (Prod.mk.inj h).1) ▸ t.next_lt
    omega
  · exact Nat.lt_succ_iff.mp (below_lt (Nat.succ_pos last) h)

theorem upToWords_le {trials : Nat} (h : upToWords patience last trials t = (.ok n, u)) :
    n ≤ last := by
  induction trials generalizing t with
  | zero =>
    rw [upToWords] at h
    split at h
    · cases h
    · dsimp only at h
      split at h
      · next hchecked =>
        cases h
        exact hchecked.1
      · cases h
  | succ trials ih =>
    rw [upToWords] at h
    split at h
    · cases h
    · dsimp only at h
      split at h
      · next hchecked =>
        cases h
        exact hchecked.1
      · exact ih h

theorem upTo_le (h : upTo patience last t = (.ok n, u)) : n ≤ last := by
  unfold upTo at h
  split at h
  · exact upToWord_le h
  · exact upToWords_le h

theorem source_honest (patience : Nat) : (source patience).Honest := by
  intro low high s n t hrange h
  have huniform : uniform patience low high s = (.ok n, t) := h
  rw [uniform, if_neg (Int.not_lt.mpr hrange)] at huniform
  split at huniform
  · next k u hupTo =>
    cases huniform
    have hk := upTo_le hupTo
    omega
  · cases huniform

theorem source_capped (patience : Nat) : (source patience).Capped := (source_honest patience).capped

end Twister

end DiceFormula
