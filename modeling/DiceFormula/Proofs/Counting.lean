import DiceFormula.Proofs.Exactness
import DiceFormula.Proofs.Gathering

/-! The integers that are computed for a roll of dice: the count, twice the count for a critical
hit, and what an average is made of. All of them are words, except for one more than the greatest
count of sides, which nothing guards. It wraps, and the average of that die is no number that the
die could show. -/
namespace DiceFormula

variable {σ : Type}

namespace Traced
variable {α β : Type}

/-- Every integer on the way is a word. -/
def Wordwise (t : Traced α) : Prop := ∀ w ∈ t.words, Word.Fits w

def attempt (x : Traced (Except Fault α)) (f : α → Traced (Except Fault β)) :
    Traced (Except Fault β) := do
  match ← x with
  | .ok a => f a
  | .error fault => return .error fault

variable {x : Traced (Except Fault α)} {f : α → Traced (Except Fault β)}

@[simp] theorem value_attempt : (x.attempt f).value = x.value >>= fun a => (f a).value := by
  rw [attempt, value_bind]
  cases x.value <;> rfl

@[simp] theorem wordwise_pure (a : α) : (pure a : Traced α).Wordwise := by
  rw [Wordwise, words_pure]
  exact List.forall_mem_nil _

@[simp] theorem wordwise_word {n : Int} : (word n).Wordwise ↔ Word.Fits n :=
  List.forall_mem_singleton

@[simp] theorem wordwise_bind {x : Traced α} {f : α → Traced β} :
    (x >>= f).Wordwise ↔ x.Wordwise ∧ (f x.value).Wordwise := by
  rw [Wordwise, words_bind]
  exact List.forall_mem_append

theorem wordwise_attempt :
    (x.attempt f).Wordwise ↔ x.Wordwise ∧ ∀ a, x.value = .ok a → (f a).Wordwise := by
  rw [attempt, wordwise_bind]
  cases x.value with
  | ok a => simp
  | error fault => simp

end Traced

open Traced

namespace Number

def IsWord (a : Number) : Prop := ∀ n, a = .int n → Word.Fits n

def Between (low high : ℚ) : Number → Prop
  | .int n => low ≤ n ∧ n ≤ high
  | .real (.finite q) => low ≤ q ∧ q ≤ high
  | .real (.zero _) => low ≤ 0 ∧ 0 ≤ high
  | .real _ => False

def sumFromTraced (total : Number) : List Number → Traced (Except Fault Number)
  | [] => return .ok total
  | a :: rest => (total.addTraced a).attempt fun next => sumFromTraced next rest

@[simp] theorem sumFromTraced_value (total : Number) (numbers : List Number) :
    (sumFromTraced total numbers).value = sumFrom total numbers := by
  induction numbers generalizing total with
  | nil => rfl
  | cons a rest ih =>
    rw [sumFromTraced, value_attempt, sumFrom, add]
    cases (total.addTraced a).value with
    | error fault => rfl
    | ok next => exact ih next

theorem addTraced_wordwise {a b : Number} (ha : a.IsWord) (hb : b.IsWord) :
    (a.addTraced b).Wordwise ∧ ∀ c, (a.addTraced b).value = .ok c → c.IsWord := by
  cases a with
  | real x =>
    refine ⟨nofun, ?_⟩
    rintro c hc n rfl
    exact absurd hc (ofReal_ne_int _ n)
  | int m =>
    cases b with
    | real y =>
      refine ⟨nofun, ?_⟩
      rintro c hc n rfl
      exact absurd hc (ofReal_ne_int _ n)
    | int n =>
      have hexact := addTraced_exact (ha m rfl) (hb n rfl)
      refine ⟨hexact.words, ?_⟩
      rintro c hc k rfl
      exact (hexact.value k hc).2

theorem sumFromTraced_wordwise {total : Number} {numbers : List Number} (htotal : total.IsWord)
    (h : ∀ a ∈ numbers, a.IsWord) : (sumFromTraced total numbers).Wordwise := by
  induction numbers generalizing total with
  | nil => exact wordwise_pure _
  | cons a rest ih =>
    rw [List.forall_mem_cons] at h
    obtain ⟨hwords, hnext⟩ := addTraced_wordwise htotal h.1
    exact wordwise_attempt.mpr ⟨hwords, fun next hvalue => ih (hnext next hvalue) h.2⟩

end Number

namespace Die

def meanTraced : Die → Traced (Except Fault Number)
  | .faces values =>
    (Number.sumFromTraced .zero values).attempt fun total => return total.div (.int values.length)
  | .sides count => (sides count).averageTraced

@[simp] theorem meanTraced_value (die : Die) : die.meanTraced.value = die.average := by
  cases die with
  | sides count => rfl
  | faces values =>
    rw [meanTraced, value_attempt, Number.sumFromTraced_value]
    rfl

theorem meanTraced_sides_wordwise {count : Int} :
    (sides count).meanTraced.Wordwise ↔ Word.Fits (count + 1) := by
  rw [meanTraced, averageTraced, wordwise_bind, wordwise_word]
  exact and_iff_left (wordwise_pure _)

theorem meanTraced_faces_wordwise {values : Faces} (h : ∀ a ∈ values, a.IsWord) :
    (faces values).meanTraced.Wordwise := by
  have hzero : Number.zero.IsWord := by
    intro n hn
    cases hn
    decide
  exact wordwise_attempt.mpr ⟨Number.sumFromTraced_wordwise hzero h, fun _ _ => wordwise_pure _⟩

theorem average_sides {count : Int} {x : ℚ} (hfits : Word.Fits (count + 1))
    (hx : Binary64.ofInt (count + 1) = .finite x) :
    (sides count).average = Number.ofReal (Binary64.round (x / 2)) := by
  have hvalue : (sides count).average = (Number.int (Word.wrapped (count + 1))).div (.int 2) := rfl
  have htwo : (Number.int 2).toReal = .finite 2 := by decide +kernel
  rw [hvalue, Word.wrapped_of_fits hfits, Number.div, htwo, Number.toReal, hx]
  rfl

/-- Two roundings move the average too little to bring it out of the numbers that the die can show.
-/
theorem average_between {count : Int} (hpos : 1 ≤ count) (hlimit : count < Word.greatest) :
    ∃ a, (sides count).average = .ok a ∧ a.Between 1 count := by
  obtain rfl | hmore : count = 1 ∨ 2 ≤ count := by omega
  · exact ⟨.real (.finite 1), by decide +kernel, by norm_num [Number.Between]⟩
  have hfits : Word.Fits (count + 1) := by
    rw [Word.fits_iff]
    unfold Word.greatest at hlimit
    omega
  have hlow : (2 : ℚ) ≤ count := by exact_mod_cast hmore
  have hhigh : (count : ℚ) ≤ 2 ^ 63 := by
    unfold Word.greatest at hlimit
    exact_mod_cast (by omega : count ≤ 2 ^ 63)
  obtain ⟨x, hx, hnear⟩ := Word.ofInt_near hfits (by omega)
  rw [Binary64.Near, Int.cast_add, Int.cast_one, abs_of_pos (by linarith : (0 : ℚ) < count + 1),
    abs_le] at hnear
  obtain ⟨hxlow, hxhigh⟩ := hnear
  have hhalf : |x / 2| = x / 2 := abs_of_pos (by linarith)
  obtain ⟨y, hy, hynear⟩ : ∃ y, Binary64.round (x / 2) = .finite y ∧
      Binary64.Near (1 / 2 ^ 53) y (x / 2) := by
    refine Binary64.round_near_of_le ?_ ?_
    · rw [hhalf]
      linarith
    · rw [hhalf]
      linarith
  rw [Binary64.Near, hhalf, abs_le] at hynear
  refine ⟨.real (.finite y), ?_, ?_, ?_⟩
  · rw [average_sides hfits hx, hy]
    rfl
  · linarith [hynear.1]
  · linarith [hynear.2]

end Die

namespace Roll

def diceCountTraced (count : Int) : Traced (Except Fault Nat) :=
  if Fault.diceLimit < count then return .error (.tooManyDice count)
  else do return .ok (← word (max count 0)).toNat

def doubledTraced (count : Int) : Traced (Except Fault Nat) :=
  (diceCountTraced count).attempt fun dice => do return .ok (← word (2 * dice)).toNat

def thrownTraced (source : Source σ) (dice : Traced (Except Fault Nat)) (die : Die) (s : σ) :
    Traced (Except Fault Roll × σ) := do
  let dice ← dice
  return (do throwMany source (← dice) die : Rolling σ Fault Roll) s

def laidTraced (count : Int) (die : Die) (number : Traced (Except Fault Number)) :
    Traced (Except Fault Roll) :=
  (diceCountTraced count).attempt fun dice => attempt (pure die.check) fun _ =>
    number.attempt fun a => return .ok (ofValues (List.replicate dice a) die)

def plainTraced (source : Source σ) (count : Int) (die : Die) (s : σ) :
    Traced (Except Fault Roll × σ) :=
  thrownTraced source (diceCountTraced count) die s

def criticalTraced (source : Source σ) (count : Int) (die : Die) (s : σ) :
    Traced (Except Fault Roll × σ) :=
  thrownTraced source (doubledTraced count) die s

def maximumTraced (count : Int) (die : Die) : Traced (Except Fault Roll) :=
  laidTraced count die (pure die.maximum)

def averageTraced (count : Int) (die : Die) : Traced (Except Fault Roll) :=
  laidTraced count die die.meanTraced

variable {source : Source σ} {count : Int} {die : Die} {s : σ}

@[simp] theorem diceCountTraced_value : (diceCountTraced count).value = diceCount count := by
  unfold diceCountTraced diceCount
  split
  · rfl
  · have hcount : (max count 0).toNat = count.toNat := by omega
    exact congrArg Except.ok hcount

@[simp] theorem doubledTraced_value :
    (doubledTraced count).value = do return 2 * (← diceCount count) := by
  rw [doubledTraced, value_attempt, diceCountTraced_value]
  cases diceCount count with
  | error fault => rfl
  | ok dice => exact congrArg Except.ok (Int.toNat_natCast (2 * dice))

theorem plainTraced_value : (plainTraced source count die s).value = plain source count die s := by
  rw [plainTraced, thrownTraced, value_bind, value_pure, diceCountTraced_value]
  rfl

theorem criticalTraced_value :
    (criticalTraced source count die s).value = critical source count die s := by
  rw [criticalTraced, thrownTraced, value_bind, value_pure, doubledTraced_value, critical]
  cases diceCount count <;> rfl

theorem laidTraced_value {number : Traced (Except Fault Number)} :
    (laidTraced count die number).value = do
    let dice ← diceCount count
    die.check
    return ofValues (List.replicate dice (← number.value)) die := by
  rw [laidTraced, value_attempt, diceCountTraced_value]
  refine bind_congr fun dice => ?_
  rw [value_attempt, value_pure]
  refine bind_congr fun _ => ?_
  rw [value_attempt]
  rfl

theorem maximumTraced_value : (maximumTraced count die).value = maximum count die :=
  laidTraced_value

theorem averageTraced_value : (averageTraced count die).value = average count die := by
  rw [averageTraced, laidTraced_value, Die.meanTraced_value]
  rfl

theorem diceCountTraced_wordwise : (diceCountTraced count).Wordwise := by
  unfold diceCountTraced
  split
  · exact wordwise_pure _
  · refine wordwise_bind.mpr ⟨wordwise_word.mpr ?_, wordwise_pure _⟩
    rw [Word.fits_iff]
    unfold Fault.diceLimit at *
    omega

theorem doubledTraced_wordwise : (doubledTraced count).Wordwise := by
  refine wordwise_attempt.mpr ⟨diceCountTraced_wordwise, fun dice hdice => ?_⟩
  refine wordwise_bind.mpr ⟨wordwise_word.mpr ?_, wordwise_pure _⟩
  rw [diceCountTraced_value, diceCount] at hdice
  unfold Fault.diceLimit at hdice
  rw [Word.fits_iff]
  split at hdice
  · cases hdice
  · cases hdice
    omega

theorem thrownTraced_wordwise {dice : Traced (Except Fault Nat)} (h : dice.Wordwise) :
    (thrownTraced source dice die s).Wordwise := wordwise_bind.mpr ⟨h, wordwise_pure _⟩

theorem laidTraced_wordwise {number : Traced (Except Fault Number)} (h : number.Wordwise) :
    (laidTraced count die number).Wordwise :=
  wordwise_attempt.mpr ⟨diceCountTraced_wordwise, fun _ _ =>
    wordwise_attempt.mpr ⟨wordwise_pure _, fun _ _ =>
    wordwise_attempt.mpr ⟨h, fun _ _ => wordwise_pure _⟩⟩⟩

theorem laidTraced_wordwise_iff {number : Traced (Except Fault Number)}
    (hcount : count ≤ Fault.diceLimit)
    (hdie : die.check = .ok ()) : (laidTraced count die number).Wordwise ↔ number.Wordwise := by
  refine ⟨fun h => ?_, laidTraced_wordwise⟩
  have hdice := (wordwise_attempt.mp h).2 count.toNat
    (diceCountTraced_value.trans (diceCount_of_le hcount))
  exact (wordwise_attempt.mp ((wordwise_attempt.mp hdice).2 () hdie)).1

theorem exists_laid {number : Except Fault Number} {a : Number} (hcount : count ≤ Fault.diceLimit)
    (hdie : die.check = .ok ()) (hnumber : number = .ok a) :
    ∃ r, (do
      let dice ← diceCount count
      die.check
      return ofValues (List.replicate dice (← number)) die) = .ok r ∧
        r.values = List.replicate count.toNat a := by
  refine ⟨ofValues (List.replicate count.toNat a) die, ?_,
    List.perm_replicate.mp (List.mergeSort_perm _ _)⟩
  rw [diceCount_of_le hcount, hdie, hnumber]
  rfl

/-- Of a die with sides, and within the limit of dice: every integer that is computed for a roll at
random, for a critical hit or for a maximum is a word, and the values of a maximum are numbers that
the die can show. The same holds of an average exactly when one more than the sides is a word; and
the sum of faces never leaves the words. -/
theorem rolls_wordwise (source : Source σ) (s : σ) (count sides : Int)
    (hcount : count ≤ Fault.diceLimit) (hpos : 1 ≤ sides) (hword : sides ≤ Word.greatest) :
    (plainTraced source count (.sides sides) s).Wordwise ∧
    (criticalTraced source count (.sides sides) s).Wordwise ∧
    (maximumTraced count (.sides sides)).Wordwise ∧
    (∃ r a, maximum count (.sides sides) = .ok r ∧
      r.values = List.replicate count.toNat a ∧ a.Between 1 sides) ∧
    ((averageTraced count (.sides sides)).Wordwise ↔ sides < Word.greatest) ∧
    (sides < Word.greatest →
      ∃ r a, average count (.sides sides) = .ok r ∧
        r.values = List.replicate count.toNat a ∧ a.Between 1 sides) ∧
    ∀ values : Faces, (∀ a ∈ values, a.IsWord) →
      (averageTraced count (.faces values)).Wordwise := by
  have hdie : (Die.sides sides).check = .ok () := if_neg (Int.not_lt.mpr hpos)
  refine ⟨thrownTraced_wordwise diceCountTraced_wordwise,
    thrownTraced_wordwise doubledTraced_wordwise,
    laidTraced_wordwise (wordwise_pure _), ?_, ?_, fun hlimit => ?_,
    fun values hvalues => laidTraced_wordwise (Die.meanTraced_faces_wordwise hvalues)⟩
  · obtain ⟨r, hroll, hvalues⟩ :=
      exists_laid hcount hdie (rfl : (Die.sides sides).maximum = .ok (.int sides))
    exact ⟨r, .int sides, hroll, hvalues, by exact_mod_cast hpos, le_rfl⟩
  · rw [averageTraced, laidTraced_wordwise_iff hcount hdie, Die.meanTraced_sides_wordwise,
      Word.fits_iff]
    unfold Word.greatest at hword ⊢
    omega
  · obtain ⟨a, haverage, hbetween⟩ := Die.average_between hpos hlimit
    obtain ⟨r, hroll, hvalues⟩ := exists_laid hcount hdie haverage
    exact ⟨r, a, hroll, hvalues, hbetween⟩

theorem rolls_wordwise_greatest :
    (criticalTraced (Script.source 0) 100000 (.sides 9223372036854775806)
      (Script.steady 4)).Wordwise ∧
    (averageTraced 100000 (.sides 9223372036854775806)).Wordwise ∧
    ∃ r a, average 100000 (.sides 9223372036854775806) = .ok r ∧
      r.values = List.replicate 100000 a ∧ a.Between 1 9223372036854775806 := by
  obtain ⟨-, hcritical, -, -, hwords, haverage, -⟩ :=
    rolls_wordwise (Script.source 0) (Script.steady 4) 100000
    9223372036854775806 (by decide) (by decide) (by decide)
  obtain ⟨r, a, hroll, hvalues, hbetween⟩ := haverage (by decide)
  exact ⟨hcritical, hwords.mpr (by decide), r, a, hroll, hvalues, by exact_mod_cast hbetween⟩

/-- One more than the greatest count of sides is no word, and what is left of it has a negative
average. -/
theorem average_of_greatest :
    let die := Die.sides Word.greatest
    die.check = .ok () ∧ ¬(averageTraced 1 die).Wordwise ∧
      ∃ r a, average 1 die = .ok r ∧ r.values = [a] ∧ a = .real (.finite (-4611686018427387904)) ∧
        ¬a.Between 1 Word.greatest := by
  have hwords : 9223372036854775808 ∈ (averageTraced 1 (.sides Word.greatest)).words := by
    decide +kernel
  refine ⟨rfl, fun h => absurd (h _ hwords) (by decide), ?_⟩
  obtain ⟨r, hroll, hvalues⟩ := exists_laid (by decide : (1 : Int) ≤ Fault.diceLimit)
    (rfl : (Die.sides Word.greatest).check = .ok ())
    (by decide +kernel : (Die.sides Word.greatest).average =
      .ok (.real (.finite (-4611686018427387904))))
  exact ⟨r, _, hroll, hvalues, rfl, fun h => absurd h.1 (by norm_num)⟩

end Roll

end DiceFormula
