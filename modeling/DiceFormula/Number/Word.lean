import DiceFormula.Binary64.Basic

/-! Arithmetic of integers in words of 64 bits. Each operation checks beforehand that its result is
a word, and refuses otherwise. Every integer that is computed on the way is kept beside the result.
-/
namespace DiceFormula

/-- A result together with the integers computed for it, in order. -/
structure Traced (α : Type) where
  value : α
  words : List Int
deriving DecidableEq

namespace Traced

def word (n : Int) : Traced Int := ⟨n, [n]⟩

instance : Monad Traced where
  pure a := ⟨a, []⟩
  bind x f :=
    let y := f x.value
    ⟨y.value, x.words ++ y.words⟩

@[simp] theorem value_word (n : Int) : (word n).value = n := rfl

@[simp] theorem words_word (n : Int) : (word n).words = [n] := rfl

@[simp] theorem value_pure {α : Type} (a : α) : (pure a : Traced α).value = a := rfl

@[simp] theorem words_pure {α : Type} (a : α) : (pure a : Traced α).words = [] := rfl

@[simp] theorem value_bind {α β : Type} (x : Traced α) (f : α → Traced β) :
    (x >>= f).value = (f x.value).value := rfl

@[simp] theorem words_bind {α β : Type} (x : Traced α) (f : α → Traced β) :
    (x >>= f).words = x.words ++ (f x.value).words := rfl

end Traced

namespace Word

open Traced

def least : Int := -9223372036854775808
def greatest : Int := 9223372036854775807

def Fits (n : Int) : Prop := least ≤ n ∧ n ≤ greatest

instance (n : Int) : Decidable (Fits n) := inferInstanceAs (Decidable (_ ∧ _))

theorem fits_iff (n : Int) : Fits n ↔ -9223372036854775808 ≤ n ∧ n ≤ 9223372036854775807 := Iff.rfl

def sum? (a b : Int) : Traced (Option Int) :=
  if 0 < b then do
    let room ← word (greatest - b)
    if room < a then return none
    return some (← word (a + b))
  else do
    let room ← word (least - b)
    if a < room then return none
    return some (← word (a + b))

theorem sum?_value {a b : Int} (ha : Fits a) (hb : Fits b) :
    (sum? a b).value = if Fits (a + b) then some (a + b) else none := by
  rw [fits_iff] at ha hb
  have high : greatest - b < a ↔ 9223372036854775807 < a + b := by simp only [greatest]; omega
  have low : a < least - b ↔ a + b < -9223372036854775808 := by simp only [least]; omega
  by_cases h : 0 < b
  · by_cases hr : greatest - b < a
    · have : ¬Fits (a + b) := by rw [fits_iff]; omega
      simp [sum?, h, hr, this]
    · have : Fits (a + b) := by rw [fits_iff]; omega
      simp [sum?, h, hr, this]
  · by_cases hr : a < least - b
    · have : ¬Fits (a + b) := by rw [fits_iff]; omega
      simp [sum?, h, hr, this]
    · have : Fits (a + b) := by rw [fits_iff]; omega
      simp [sum?, h, hr, this]

theorem sum?_words {a b : Int} (ha : Fits a) (hb : Fits b) :
    ∀ w ∈ (sum? a b).words, Fits w := by
  rw [fits_iff] at ha hb
  by_cases h : 0 < b
  · have room : Fits (greatest - b) := by simp only [fits_iff, greatest]; omega
    by_cases hr : greatest - b < a
    · simp [sum?, h, hr, room]
    · have : Fits (a + b) := by rw [fits_iff]; simp only [greatest] at hr; omega
      simp [sum?, h, hr, room, this]
  · have room : Fits (least - b) := by simp only [fits_iff, least]; omega
    by_cases hr : a < least - b
    · simp [sum?, h, hr, room]
    · have : Fits (a + b) := by rw [fits_iff]; simp only [least] at hr; omega
      simp [sum?, h, hr, room, this]

def difference? (a b : Int) : Traced (Option Int) :=
  if b < 0 then do
    let room ← word (greatest + b)
    if room < a then return none
    return some (← word (a - b))
  else do
    let room ← word (least + b)
    if a < room then return none
    return some (← word (a - b))

theorem difference?_value {a b : Int} (ha : Fits a) (hb : Fits b) :
    (difference? a b).value = if Fits (a - b) then some (a - b) else none := by
  rw [fits_iff] at ha hb
  have high : greatest + b < a ↔ 9223372036854775807 < a - b := by simp only [greatest]; omega
  have low : a < least + b ↔ a - b < -9223372036854775808 := by simp only [least]; omega
  by_cases h : b < 0
  · by_cases hr : greatest + b < a
    · have : ¬Fits (a - b) := by rw [fits_iff]; omega
      simp [difference?, h, hr, this]
    · have : Fits (a - b) := by rw [fits_iff]; omega
      simp [difference?, h, hr, this]
  · by_cases hr : a < least + b
    · have : ¬Fits (a - b) := by rw [fits_iff]; omega
      simp [difference?, h, hr, this]
    · have : Fits (a - b) := by rw [fits_iff]; omega
      simp [difference?, h, hr, this]

theorem difference?_words {a b : Int} (ha : Fits a) (hb : Fits b) :
    ∀ w ∈ (difference? a b).words, Fits w := by
  rw [fits_iff] at ha hb
  by_cases h : b < 0
  · have room : Fits (greatest + b) := by simp only [fits_iff, greatest]; omega
    by_cases hr : greatest + b < a
    · simp [difference?, h, hr, room]
    · have : Fits (a - b) := by rw [fits_iff]; simp only [greatest] at hr; omega
      simp [difference?, h, hr, room, this]
  · have room : Fits (least + b) := by simp only [fits_iff, least]; omega
    by_cases hr : a < least + b
    · simp [difference?, h, hr, room]
    · have : Fits (a - b) := by rw [fits_iff]; simp only [least] at hr; omega
      simp [difference?, h, hr, room, this]

/-- The word that is left of an integer when it is counted modulo `2 ^ 64`. -/
def wrapped (n : Int) : Int := n.bmod 18446744073709551616

theorem wrapped_of_fits {n : Int} (h : Fits n) : wrapped n = n := by
  rw [fits_iff] at h
  exact Int.bmod_eq_of_le (by omega) (by omega)

/-- A little below the first number that is no word, so that rounding cannot hide an excess. -/
def productLimit : Binary64 := .finite 9200000000000000000

def productExceeds (a b : Int) : Bool :=
  productLimit.lt ((Binary64.ofInt a).mul (Binary64.ofInt b)).abs

def product? (a b : Int) : Traced (Option Int) :=
  if productExceeds a b then return none
  else do return some (← word (a * b))

def negation? (a : Int) : Traced (Option Int) :=
  if a = least then return none
  else do return some (← word (-a))

theorem negation?_value (a : Int) :
    (negation? a).value = if a = least then none else some (-a) := by
  by_cases h : a = least <;> simp [negation?, h]

theorem negation?_words {a : Int} (ha : Fits a) : ∀ w ∈ (negation? a).words, Fits w := by
  by_cases h : a = least
  · simp [negation?, h]
  · have : Fits (-a) := by
      simp only [fits_iff, least] at *
      omega
    simp [negation?, h, this]

def modulo (a b : Int) : Traced Int :=
  if b = -1 then return 0
  else do
    let rest ← word (a.tmod b)
    if rest ≠ 0 ∧ (rest < 0 ↔ 0 ≤ b) then word (rest + b) else return rest

def powerFrom? (result factor : Int) (remaining : Nat) : Traced (Option Int) := do
  if remaining = 0 then return some result
  let product ← if remaining % 2 = 1 then product? result factor else pure (some result)
  match product with
  | none => return none
  | some product =>
    if remaining / 2 = 0 then return some product
    match ← product? factor factor with
    | none => return none
    | some square => powerFrom? product square (remaining / 2)
termination_by remaining
decreasing_by omega

def power? (base : Int) (exponent : Nat) : Traced (Option Int) := powerFrom? 1 base exponent

end Word

end DiceFormula
