import DiceFormula.Number.Arithmetic
import DiceFormula.Proofs.Products
import Mathlib.Data.Nat.Factorial.Basic

/-! Arithmetic of integers that stays exact. An integer result is the exact one, and nothing
computed for it leaves the words; and an exact result that is a word is found, unless the guard of
products takes it for too great. -/
namespace DiceFormula

/-- An integer result is the exact one and a word, and so is every integer on the way a word. -/
structure Traced.Exact (t : Traced (Except Fault Number)) (exact : Int) : Prop where
  words : ∀ w ∈ t.words, Word.Fits w
  value : ∀ n, t.value = .ok (.int n) → n = exact ∧ Word.Fits n

theorem Traced.Exact.bind {α : Type} {x : Traced α} {f : α → Traced (Except Fault Number)}
    {exact : Int}
    (hx : ∀ w ∈ x.words, Word.Fits w) (hf : (f x.value).Exact exact) : (x >>= f).Exact exact := by
  refine ⟨fun w hw => ?_, hf.value⟩
  rw [words_bind] at hw
  exact (List.mem_append.mp hw).elim (hx w) (hf.words w)

theorem Traced.exact_int {n : Int} (h : Word.Fits n) :
    (return .ok (.int n) : Traced (Except Fault Number)).Exact n := by
  refine ⟨nofun, fun m hm => ?_⟩
  cases hm
  exact ⟨rfl, h⟩

theorem Traced.exact_of_ne_int {r : Except Fault Number} (h : ∀ n, r ≠ .ok (.int n)) (exact : Int) :
    (return r : Traced (Except Fault Number)).Exact exact :=
  ⟨nofun, fun n hn => absurd hn (h n)⟩

theorem Traced.exact_error (fault : Fault) (exact : Int) :
    (return .error fault : Traced (Except Fault Number)).Exact exact :=
  exact_of_ne_int (fun _ h => by cases h) exact

namespace Word

open Traced

variable {a b : Int}

theorem sum?_safe (ha : Fits a) (hb : Fits b) : (sum? a b).Safe fun n => n = a + b ∧ Fits n where
  words := sum?_words ha hb
  value n hn := by
    rw [sum?_value ha hb, Option.ite_none_right_eq_some, Option.some.injEq] at hn
    exact ⟨hn.2.symm, hn.2 ▸ hn.1⟩

theorem difference?_safe (ha : Fits a) (hb : Fits b) :
    (difference? a b).Safe fun n => n = a - b ∧ Fits n where
  words := difference?_words ha hb
  value n hn := by
    rw [difference?_value ha hb, Option.ite_none_right_eq_some, Option.some.injEq] at hn
    exact ⟨hn.2.symm, hn.2 ▸ hn.1⟩

theorem modulo_value (a b : Int) : (modulo a b).value = a.fmod b := by
  rw [Int.fmod_eq_tmod]
  by_cases hdvd : b ∣ a
  · have hrest := Int.tmod_eq_zero_of_dvd hdvd
    by_cases hone : b = -1 <;>
      simp [modulo, hone, hrest, hdvd, Int.tmod_eq_zero_of_dvd]
  · have hone : b ≠ -1 := fun h => hdvd (h ▸ ⟨-a, by ring⟩)
    have hrest : a.tmod b ≠ 0 := fun h => hdvd (Int.dvd_of_tmod_eq_zero h)
    have hsign : a.tmod b < 0 ↔ a < 0 := by
      have hpos := Int.tmod_nonneg b (a := a)
      have hneg := Int.tmod_nonneg b (a := -a)
      rw [Int.neg_tmod] at hneg
      omega
    by_cases hflip : a < 0 ↔ 0 ≤ b
    · simp only [modulo, hone, ↓reduceIte, value_bind, value_word, ne_eq, hrest, not_false_eq_true,
        hsign, hflip, and_self, hdvd]
      split_ifs <;> omega
    · simp only [modulo, hone, ↓reduceIte, value_bind, value_word, ne_eq, hrest, not_false_eq_true,
        hsign, hflip, and_false, hdvd, value_pure]
      split_ifs <;> omega

theorem modulo_fits (hb : Fits b) (hne : b ≠ 0) :
    (∀ w ∈ (modulo a b).words, Fits w) ∧ Fits (modulo a b).value := by
  have hless : (a.tmod b).natAbs < b.natAbs := by
    rw [Int.natAbs_tmod]
    exact Nat.mod_lt _ (by omega)
  rw [fits_iff] at hb
  have hrest : Fits (a.tmod b) := by rw [fits_iff]; omega
  unfold modulo
  split
  · exact ⟨nofun, (by decide : Fits 0)⟩
  · rw [words_bind, value_bind, value_word, words_word]
    split
    · next hflip =>
      have hsum : Fits (a.tmod b + b) := by rw [fits_iff]; omega
      simp [hrest, hsum]
    · simp [hrest]

end Word

namespace Number

open Traced Word

variable {a b : Int}

theorem ofReal_ne_int (x : Binary64) (n : Int) : ofReal x ≠ .ok (.int n) := by
  unfold ofReal
  split <;> nofun

theorem exactOr_exact {m : Int} {exact : Traced (Option Int)}
    (h : exact.Safe fun n => n = m ∧ Fits n)
    (real : Unit → Binary64) : (exactOr exact real).Exact m := by
  refine Exact.bind h.words ?_
  cases hvalue : exact.value with
  | none => exact exact_of_ne_int (ofReal_ne_int _) m
  | some n =>
    obtain ⟨rfl, hn⟩ := h.value n hvalue
    exact exact_int hn

theorem addTraced_exact (ha : Fits a) (hb : Fits b) :
    ((int a).addTraced (int b)).Exact (a + b) := by
  rw [addTraced]
  exact exactOr_exact (sum?_safe ha hb) _

theorem subTraced_exact (ha : Fits a) (hb : Fits b) :
    ((int a).subTraced (int b)).Exact (a - b) := by
  rw [subTraced]
  exact exactOr_exact (difference?_safe ha hb) _

theorem mulTraced_exact (ha : Fits a) (hb : Fits b) :
    ((int a).mulTraced (int b)).Exact (a * b) := by
  obtain ⟨hwords, hvalue⟩ := product?_safe ha hb
  rw [mulTraced]
  refine exactOr_exact ⟨hwords, fun n hn => ?_⟩ _
  obtain ⟨rfl, hle⟩ := hvalue n hn
  exact ⟨rfl, fits_of_abs_le hle⟩

theorem modTraced_exact (hb : Fits b) (hne : b ≠ 0) :
    ((int a).modTraced (int b)).Exact (a.fmod b) := by
  obtain ⟨hwords, hvalue⟩ := modulo_fits (a := a) hb hne
  unfold modTraced
  split
  · exact exact_error _ _
  · rw [← modulo_value]
    exact Exact.bind hwords (exact_int hvalue)

theorem negTraced_exact (ha : Fits a) :
    (do return .ok (← (int a).negTraced) : Traced (Except Fault Number)).Exact (-a) := by
  refine Exact.bind (fun w hw => ?_) ?_
  · rw [negTraced, words_bind] at hw
    refine negation?_words ha w ?_
    cases hvalue : (negation? a).value <;> simpa [hvalue] using hw
  · rw [negTraced, value_bind, negation?_value]
    by_cases hleast : a = least
    · rw [if_pos hleast]
      exact exact_of_ne_int (fun _ h => by cases h) _
    · rw [if_neg hleast]
      refine exact_int ?_
      rw [fits_iff] at ha ⊢
      unfold least at hleast
      omega

theorem powerTraced_exact (ha : Fits a) (hb : 0 ≤ b) :
    ((int a).powerTraced (int b)).Exact (a ^ b.toNat) := by
  obtain ⟨hwords, hvalue⟩ := powerFrom?_safe b.toNat (by decide : Fits 1) ha
  unfold powerTraced
  split
  · exact exact_error _ _
  · dsimp only
    rw [if_pos hb]
    refine exactOr_exact ⟨hwords, fun n hn => ?_⟩ _
    obtain ⟨hpower, hfits, -⟩ := hvalue n hn
    exact ⟨by rw [hpower, one_mul], hfits⟩

theorem risingProduct_exact {acc : Number} {k : Nat} (factors : Nat)
    (hacc : ∀ m, acc = .int m → m = k.factorial ∧ Fits m) (hk : k + factors ≤ 170) :
    (risingProduct acc (k + 1) factors).Exact (k + factors).factorial := by
  induction factors generalizing acc k with
  | zero =>
    refine ⟨nofun, fun n hn => ?_⟩
    cases hn
    exact hacc n rfl
  | succ factors ih =>
    have hnext : Fits (k + 1) := by rw [fits_iff]; omega
    have hcount : Fits (k + 1 + 1) := by rw [fits_iff]; omega
    have hmul : (acc.mulTraced (.int (k + 1))).Exact (k + 1).factorial := by
      cases acc with
      -- A product that became real stays so and has no integer to be equal to.
      | real x => exact exact_of_ne_int (ofReal_ne_int _) _
      | int m =>
        obtain ⟨rfl, hm⟩ := hacc m rfl
        rw [Nat.factorial_succ, mul_comm, Nat.cast_mul, Nat.cast_succ]
        exact mulTraced_exact hm hnext
    rw [risingProduct]
    refine Exact.bind hmul.words ?_
    cases hvalue : (acc.mulTraced (.int (k + 1))).value with
    | error fault => exact exact_error _ _
    | ok product =>
      refine Exact.bind (by simpa using hcount) ?_
      have hproduct : ∀ m, product = .int m → m = (k + 1).factorial ∧ Fits m := by
        rintro m rfl
        exact hmul.value m hvalue
      have hrest := ih hproduct (by omega)
      rwa [Nat.succ_add_eq_add_succ] at hrest

theorem factorialTraced_exact (a : Int) : (factorialTraced a).Exact a.toNat.factorial := by
  unfold factorialTraced
  split
  · exact exact_error _ _
  · split
    · exact exact_error _ _
    · next hneg hbig =>
      have hlimit : a.toNat ≤ 170 := by
        unfold factorialLimit at hbig
        omega
      have hone : ∀ m, one = .int m → m = (1 : Nat).factorial ∧ Fits m := by
        rintro m hm
        cases hm
        decide
      have hrising := risingProduct_exact (a.toNat - 1) hone (by omega)
      have hfactorial : (1 + (a.toNat - 1)).factorial = a.toNat.factorial := by
        obtain hzero | hpos := Nat.eq_zero_or_pos a.toNat
        · rw [hzero]
          rfl
        · rw [Nat.add_sub_cancel' hpos]
      rwa [hfactorial] at hrising

theorem value_exactOr {m : Int} {exact : Traced (Option Int)} (h : exact.value = some m)
    (real : Unit → Binary64) : (exactOr exact real).value = .ok (.int m) := by
  rw [exactOr, value_bind, h]
  rfl

theorem add_of_fits (ha : Fits a) (hb : Fits b) (h : Fits (a + b)) :
    (int a).add (int b) = .ok (.int (a + b)) := by
  rw [add, addTraced]
  exact value_exactOr (by rw [sum?_value ha hb, if_pos h]) _

theorem sub_of_fits (ha : Fits a) (hb : Fits b) (h : Fits (a - b)) :
    (int a).sub (int b) = .ok (.int (a - b)) := by
  rw [sub, subTraced]
  exact value_exactOr (by rw [difference?_value ha hb, if_pos h]) _

theorem mul_of_passes (h : productExceeds a b = false) :
    (int a).mul (int b) = .ok (.int (a * b)) := by
  rw [mul, mulTraced]
  refine value_exactOr ?_ _
  rw [product?_value, h]
  rfl

theorem not_lt_zero_ofInt (hb : Fits b) (hnonneg : 0 ≤ b) :
    (int b).toReal.lt (.zero false) = false := by
  obtain rfl | hne := eq_or_ne b 0
  · decide
  · obtain ⟨x, hx, hnear⟩ := ofInt_near hb hne
    have hpos : (0 : ℚ) < b := by exact_mod_cast lt_of_le_of_ne hnonneg hne.symm
    have hx0 : 0 < x := by
      rw [Binary64.Near, abs_le, abs_of_pos hpos] at hnear
      linarith [hnear.1]
    have hlt : ¬ x < 0 := not_lt.mpr hx0.le
    simp [toReal, hx, Binary64.lt, Binary64.place, hlt]

theorem powerTraced_of_nonneg (hb : Fits b) (hnonneg : 0 ≤ b) :
    (int a).powerTraced (int b) =
      exactOr (power? a b.toNat) fun _ => (int a).toReal.pow (int b).toReal := by
  rw [powerTraced, not_lt_zero_ofInt hb hnonneg, Bool.and_false, if_neg Bool.false_ne_true]
  exact if_pos hnonneg

theorem power_of_abs_le (ha : Fits a) (hb : Fits b) (hnonneg : 0 ≤ b)
    (h : |a ^ b.toNat| ≤ productFloor) : (int a).power (int b) = .ok (.int (a ^ b.toNat)) := by
  have hpower := powerFrom?_value b.toNat (by decide : Fits 1) ha
    (fun h => absurd h one_ne_zero) (by rwa [one_mul])
  rw [one_mul] at hpower
  rw [power, powerTraced_of_nonneg hb hnonneg]
  exact value_exactOr hpower _

theorem exactOr_ne_int {exact : Traced (Option Int)} (h : exact.value = none)
    (real : Unit → Binary64) (n : Int) : (exactOr exact real).value ≠ .ok (.int n) := by
  rw [exactOr, value_bind, h]
  exact ofReal_ne_int _ n

theorem mul_ne_int (ha : Fits a) (hb : Fits b) (h : productCeiling < |a * b|) (n : Int) :
    (int a).mul (int b) ≠ .ok (.int n) := by
  rw [mul, mulTraced]
  refine exactOr_ne_int ?_ _ n
  rw [Option.eq_none_iff_forall_ne_some]
  intro m hm
  obtain ⟨rfl, hle⟩ := (product?_safe ha hb).value m hm
  exact absurd hle (not_le.mpr h)

theorem power_ne_int (ha : Fits a) (hb : Fits b) (hnonneg : 0 ≤ b)
    (h : productCeiling < |a ^ b.toNat|) (n : Int) : (int a).power (int b) ≠ .ok (.int n) := by
  rw [power, powerTraced_of_nonneg hb hnonneg]
  refine exactOr_ne_int ?_ _ n
  rw [Option.eq_none_iff_forall_ne_some]
  intro m hm
  obtain ⟨hpower, -, hle⟩ := (powerFrom?_safe b.toNat (by decide : Fits 1) ha).value m hm
  rw [one_mul] at hpower
  rw [← hpower] at h
  refine absurd (hle fun hzero => ?_) (not_le.mpr h)
  rw [hpower, hzero, pow_zero] at h
  exact absurd h (by decide)

/-- Sums and differences are exact as long as they are words. Products and powers are exact up to
the guard's limit, which lies below the greatest word, and real above it. -/
theorem exact_of_fits (a b : Int) (ha : Fits a) (hb : Fits b) :
    (Fits (a + b) → (int a).add (int b) = .ok (.int (a + b))) ∧
    (Fits (a - b) → (int a).sub (int b) = .ok (.int (a - b))) ∧
    (|a * b| ≤ productFloor → (int a).mul (int b) = .ok (.int (a * b))) ∧
    (productCeiling < |a * b| → ∀ n, (int a).mul (int b) ≠ .ok (.int n)) ∧
    (0 ≤ b → |a ^ b.toNat| ≤ productFloor → (int a).power (int b) = .ok (.int (a ^ b.toNat))) ∧
    (0 ≤ b → productCeiling < |a ^ b.toNat| → ∀ n, (int a).power (int b) ≠ .ok (.int n)) :=
  ⟨add_of_fits ha hb, sub_of_fits ha hb, fun h => mul_of_passes (passes_of_abs_le ha hb h),
    mul_ne_int ha hb,
    power_of_abs_le ha hb, power_ne_int ha hb⟩

theorem exact_of_fits_cube :
    Fits 2000000 ∧ Fits 3 ∧ Fits 9223372036854775806 ∧ Fits 1 ∧
    (int 9223372036854775806).add (int 1) = .ok (.int greatest) ∧
    (int 2000000).power (int 3) = .ok (.int 8000000000000000000) ∧
    ∀ n, (int 9223372036854775806).mul (int 1) ≠ .ok (.int n) := by
  obtain ⟨-, -, -, -, hpower, -⟩ := exact_of_fits 2000000 3 (by decide) (by decide)
  obtain ⟨hadd, -, -, hmul, -, -⟩ := exact_of_fits 9223372036854775806 1 (by decide) (by decide)
  exact ⟨by decide, by decide, by decide, by decide, hadd (by decide),
    hpower (by decide) (by decide), hmul (by decide)⟩

/-- The greatest word times one is a word, yet neither this product nor the first power of that word
is found. -/
theorem product_refused :
    Fits greatest ∧ Fits (greatest * 1) ∧
    (int greatest).mul (int 1) = .ok (.real (.finite 9223372036854775808)) ∧
    (int greatest).mul (int 1) ≠ .ok (.int (greatest * 1)) ∧
    power? greatest 1 = ⟨none, []⟩ := by
  decide +kernel

end Number

end DiceFormula
