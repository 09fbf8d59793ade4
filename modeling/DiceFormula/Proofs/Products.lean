import DiceFormula.Number.Word
import DiceFormula.Proofs.Rounding

/-! What the guard of products lets pass. It compares a product of rounded factors, itself rounded,
with a limit below the greatest word, so that it is certain only a few steps of the reals away from
the limit. -/
namespace DiceFormula

/-- Every integer on the way is a word, and the result, if there is one, is as it should be. -/
structure Traced.Safe {α : Type} (t : Traced (Option α)) (P : α → Prop) : Prop where
  words : ∀ w ∈ t.words, Word.Fits w
  value : ∀ a, t.value = some a → P a

theorem Traced.safe_some {α : Type} {P : α → Prop} {a : α} (h : P a) :
    Safe (return some a : Traced (Option α)) P where
  words := nofun
  value _ hvalue := Option.some.inj hvalue ▸ h

theorem Traced.safe_none {α : Type} {P : α → Prop} : Safe (return none : Traced (Option α)) P where
  words := nofun
  value := nofun

theorem Traced.Safe.bind {α β : Type} {P : α → Prop} {Q : β → Prop} {x : Traced (Option α)}
    {f : Option α → Traced (Option β)} (hx : Safe x P) (hnone : Safe (f none) Q)
    (hsome : ∀ a, P a → Safe (f (some a)) Q) : Safe (x >>= f) Q := by
  have hf : Safe (f x.value) Q := by
    cases hvalue : x.value with
    | none => exact hnone
    | some a => exact hsome a (hx.value a hvalue)
  refine ⟨fun w hw => ?_, hf.value⟩
  rw [words_bind] at hw
  exact (List.mem_append.mp hw).elim (hx.words w) (hf.words w)

namespace Word

open Binary64 Traced

def productFloor : Int := 9199999999999995904

def productCeiling : Int := 9200000000000004096

variable {a b : Int}

@[simp] theorem ofInt_zero : ofInt 0 = .zero false := by decide

theorem abs_le_of_fits (ha : Fits a) : |(a : ℚ)| ≤ 2 ^ 63 := by
  rw [fits_iff] at ha
  rw [abs_le]
  constructor
  · exact_mod_cast ha.1
  · exact_mod_cast ha.2.trans (by norm_num)

theorem ofInt_near (ha : Fits a) (hne : a ≠ 0) :
    ∃ x, ofInt a = .finite x ∧ Near (1 / 2 ^ 53) x a := by
  have hone : (1 : ℚ) ≤ |(a : ℚ)| := by exact_mod_cast Int.one_le_abs hne
  have hfits := abs_le_of_fits ha
  exact round_near_of_le (by linarith) (hfits.trans (by norm_num))

theorem mul_near (ha : Fits a) (hb : Fits b) (hane : a ≠ 0) (hbne : b ≠ 0) :
    ∃ z, (ofInt a).mul (ofInt b) = .finite z ∧ Near (1 / 2 ^ 51) z (a * b) := by
  obtain ⟨x, hx, hxnear⟩ := ofInt_near ha hane
  obtain ⟨y, hy, hynear⟩ := ofInt_near hb hbne
  have hfactors := hxnear.mul hynear
  have hone : (1 : ℚ) ≤ |(a : ℚ) * b| := by
    exact_mod_cast Int.one_le_abs (Int.mul_ne_zero hane hbne)
  have hmost : |(a : ℚ) * b| ≤ 2 ^ 126 := by
    rw [abs_mul]
    exact (mul_le_mul (abs_le_of_fits ha) (abs_le_of_fits hb) (abs_nonneg _) (by norm_num)).trans
      (by norm_num)
  obtain ⟨z, hz, hznear⟩ : ∃ z, Binary64.round (x * y) = .finite z ∧
      Near (1 / 2 ^ 53) z (x * y) := by
    refine round_near_of_le (le_trans ?_ hfactors.le_abs) (hfactors.abs_le.trans ?_)
    · exact le_trans (by norm_num) (mul_le_mul_of_nonneg_right hone (by norm_num))
    · exact (mul_le_mul_of_nonneg_right hmost (by norm_num)).trans (by norm_num)
  refine ⟨z, by rw [hx, hy]; exact hz, ?_⟩
  have htotal := hfactors.trans (by norm_num) hznear
  unfold Near at htotal ⊢
  refine htotal.trans (mul_le_mul_of_nonneg_left ?_ (abs_nonneg _))
  norm_num

theorem productExceeds_eq {z : ℚ} (h : (ofInt a).mul (ofInt b) = .finite z) :
    productExceeds a b = decide (9200000000000000000 < |z|) := by
  have habs : Binary64.abs (.finite z) = .finite |z| := by
    unfold Binary64.abs Binary64.negative Binary64.neg
    by_cases hneg : z < 0
    · simp [hneg, abs_of_neg hneg]
    · simp [hneg, abs_of_nonneg (not_lt.mp hneg)]
  simp [productExceeds, h, habs, productLimit, lt, place]

theorem productExceeds_of_eq_zero (ha : Fits a) (hb : Fits b) (h : a = 0 ∨ b = 0) :
    productExceeds a b = false := by
  have hmul : ∃ sign, (ofInt a).mul (ofInt b) = .zero sign := by
    obtain rfl | hane := eq_or_ne a 0
    · obtain rfl | hbne := eq_or_ne b 0
      · exact ⟨_, rfl⟩
      · obtain ⟨y, hy, -⟩ := ofInt_near hb hbne
        exact ⟨_, by rw [ofInt_zero, hy]; rfl⟩
    · obtain rfl : b = 0 := h.resolve_left hane
      obtain ⟨x, hx, -⟩ := ofInt_near ha hane
      exact ⟨_, by rw [ofInt_zero, hx]; rfl⟩
  obtain ⟨sign, hmul⟩ := hmul
  cases sign <;> simp [productExceeds, hmul, productLimit, Binary64.abs, negative, neg, lt, place]

theorem abs_le_of_passes (ha : Fits a) (hb : Fits b) (h : productExceeds a b = false) :
    |a * b| ≤ productCeiling := by
  by_cases hzero : a = 0 ∨ b = 0
  · have hproduct : a * b = 0 := mul_eq_zero.mpr hzero
    rw [hproduct]
    decide
  · obtain ⟨hane, hbne⟩ := not_or.mp hzero
    obtain ⟨z, hmul, hnear⟩ := mul_near ha hb hane hbne
    rw [productExceeds_eq hmul, decide_eq_false_iff_not, not_lt] at h
    have hle := hnear.le_abs.trans h
    have hbound : |(a * b : ℚ)| ≤ (productCeiling : ℤ) := by
      rw [productCeiling]
      push_cast
      linarith
    exact_mod_cast hbound

theorem passes_of_abs_le (ha : Fits a) (hb : Fits b) (h : |a * b| ≤ productFloor) :
    productExceeds a b = false := by
  by_cases hzero : a = 0 ∨ b = 0
  · exact productExceeds_of_eq_zero ha hb hzero
  · obtain ⟨hane, hbne⟩ := not_or.mp hzero
    obtain ⟨z, hmul, hnear⟩ := mul_near ha hb hane hbne
    rw [productExceeds_eq hmul, decide_eq_false_iff_not, not_lt]
    have hbound : |(a * b : ℚ)| ≤ (productFloor : ℤ) := by exact_mod_cast h
    rw [productFloor] at hbound
    push_cast at hbound
    exact hnear.abs_le.trans (by linarith)

theorem fits_of_abs_le (h : |a| ≤ productCeiling) : Fits a := by
  rw [abs_le] at h
  rw [fits_iff]
  unfold productCeiling at h
  omega

theorem product?_value (a b : Int) :
    (product? a b).value = if productExceeds a b then none else some (a * b) := by
  unfold product?
  split <;> rfl

theorem product?_safe (ha : Fits a) (hb : Fits b) :
    (product? a b).Safe fun n => n = a * b ∧ |n| ≤ productCeiling := by
  unfold product?
  split
  · exact ⟨nofun, nofun⟩
  · next hpasses =>
    have hproduct := abs_le_of_passes ha hb (Bool.eq_false_of_not_eq_true hpasses)
    refine ⟨?_, ?_⟩
    · simpa using fits_of_abs_le hproduct
    · simpa using hproduct

theorem pow_halves (factor : Int) (remaining : Nat) :
    factor ^ remaining = factor ^ (remaining % 2) * (factor * factor) ^ (remaining / 2) := by
  conv_lhs => rw [← Nat.mod_add_div remaining 2, pow_add, pow_mul, pow_two]

def squaredFrom? (product factor : Int) (half : Nat) : Traced (Option Int) :=
  if half = 0 then return some product
  else product? factor factor >>= fun found => found.elim (pure none) (powerFrom? product · half)

variable {result product factor : Int} {remaining half : Nat}

theorem powerFrom?_eq (hne : remaining ≠ 0) :
    powerFrom? result factor remaining =
      (if remaining % 2 = 1 then product? result factor else pure (some result)) >>= fun found =>
        found.elim (pure none) (squaredFrom? · factor (remaining / 2)) := by
  rw [powerFrom?, if_neg hne]
  dsimp only
  split
  all_goals
    refine bind_congr fun found => ?_
    cases found with
    | none => rfl
    | some product =>
      simp only [squaredFrom?, Option.elim_some]
      refine if_congr Iff.rfl rfl (bind_congr fun square => ?_)
      cases square <;> rfl

theorem powerFrom?_even (hne : remaining ≠ 0) (heven : remaining % 2 = 0) :
    powerFrom? result factor remaining = squaredFrom? result factor (remaining / 2) := by
  rw [powerFrom?_eq hne, if_neg (by omega)]
  rfl

theorem powerFrom?_odd (hodd : remaining % 2 = 1) :
    powerFrom? result factor remaining = product? result factor >>= fun found =>
      found.elim (pure none) (squaredFrom? · factor (remaining / 2)) := by
  rw [powerFrom?_eq (by omega), if_pos hodd]

theorem squaredFrom?_safe (hfactor : Fits factor) (hproduct : Fits product)
    (hlast : half = 0 → |product| ≤ productCeiling)
    (hpower : half ≠ 0 → ∀ square, square = factor * factor → Fits square →
      (powerFrom? product square half).Safe fun n =>
        n = product * square ^ half ∧ Fits n ∧ (half ≠ 0 → |n| ≤ productCeiling)) :
    (squaredFrom? product factor half).Safe fun n =>
      n = product * (factor * factor) ^ half ∧ Fits n ∧ |n| ≤ productCeiling := by
  unfold squaredFrom?
  split
  · next hhalf => exact safe_some ⟨by rw [hhalf, pow_zero, mul_one], hproduct, hlast hhalf⟩
  · next hhalf =>
    refine (product?_safe hfactor hfactor).bind safe_none fun square ⟨hsquare, hle⟩ => ?_
    obtain ⟨hwords, hvalue⟩ := hpower hhalf square hsquare (fits_of_abs_le hle)
    refine ⟨hwords, fun n hn => ?_⟩
    obtain ⟨hn, hfits, hsmall⟩ := hvalue n hn
    exact ⟨by rw [hn, hsquare], hfits, hsmall hhalf⟩

theorem powerFrom?_safe (remaining : Nat) (hresult : Fits result) (hfactor : Fits factor) :
    (powerFrom? result factor remaining).Safe fun n =>
      n = result * factor ^ remaining ∧ Fits n ∧ (remaining ≠ 0 → |n| ≤ productCeiling) := by
  induction remaining using Nat.strong_induction_on generalizing result factor with
  | h remaining ih =>
    have hrest : remaining ≠ 0 → ∀ product, product = result * factor ^ (remaining % 2) →
      Fits product →
        (remaining / 2 = 0 → |product| ≤ productCeiling) →
        (squaredFrom? product factor (remaining / 2)).Safe fun n =>
          n = result * factor ^ remaining ∧ Fits n ∧ (remaining ≠ 0 → |n| ≤ productCeiling) := by
      intro hne product hproduct hfits hlast
      obtain ⟨hwords, hvalue⟩ := squaredFrom?_safe hfactor hfits hlast fun _ square _ hsquare =>
        ih (remaining / 2) (by omega) hfits hsquare
      refine ⟨hwords, fun n hn => ?_⟩
      obtain ⟨hn, hfits, hle⟩ := hvalue n hn
      exact ⟨by rw [hn, hproduct, mul_assoc, ← pow_halves], hfits, fun _ => hle⟩
    obtain hzero | hne := eq_or_ne remaining 0
    · rw [hzero, powerFrom?, if_pos rfl]
      exact safe_some ⟨by rw [pow_zero, mul_one], hresult, fun h => absurd rfl h⟩
    · obtain heven | hodd := Nat.mod_two_eq_zero_or_one remaining
      · rw [powerFrom?_even hne heven]
        exact hrest hne result (by rw [heven, pow_zero, mul_one]) hresult fun hhalf => by omega
      · rw [powerFrom?_odd hodd]
        refine (product?_safe hresult hfactor).bind safe_none fun product ⟨hproduct, hle⟩ => ?_
        exact hrest hne product (by rw [hproduct, hodd, pow_one]) (fits_of_abs_le hle) fun _ => hle

theorem passes_of_dvd {n : Int} (ha : Fits a) (hb : Fits b) (hdvd : a * b ∣ n) (hne : n ≠ 0)
    (hn : |n| ≤ productFloor) : productExceeds a b = false := by
  have habs : |a * b| ∣ |n| := (abs_dvd_abs _ _).mpr hdvd
  exact passes_of_abs_le ha hb ((Int.le_of_dvd (abs_pos.mpr hne) habs).trans hn)

/-- The products of a power that is small enough divide it, so that the guard lets them pass; those
of a power that is zero are zero. -/
theorem passes_of_power (hresult : Fits result) (hfactor : Fits factor)
    (hzero : result = 0 → factor = 0)
    (hne : remaining ≠ 0) (hle : |result * factor ^ remaining| ≤ productFloor) :
    productExceeds result factor = false ∧
    (remaining / 2 ≠ 0 → productExceeds factor factor = false) := by
  by_cases hf : factor = 0
  · exact ⟨productExceeds_of_eq_zero hresult hfactor (.inr hf),
      fun _ => productExceeds_of_eq_zero hfactor hfactor (.inr hf)⟩
  · have hpower : result * factor ^ remaining ≠ 0 := mul_ne_zero (mt hzero hf) (pow_ne_zero _ hf)
    refine ⟨passes_of_dvd hresult hfactor (mul_dvd_mul_left _ (dvd_pow_self _ hne)) hpower hle,
      fun hhalf => ?_⟩
    have hsquare : factor * factor ∣ result * factor ^ remaining := by
      rw [← pow_two]
      exact (pow_dvd_pow factor (by omega)).mul_left result
    exact passes_of_dvd hfactor hfactor hsquare hpower hle

theorem value_product?_elim {f : Int → Traced (Option Int)} (hpasses : productExceeds a b = false) :
    (product? a b >>= fun found => found.elim (pure none) f).value = (f (a * b)).value := by
  rw [value_bind, product?_value, hpasses]
  rfl

theorem powerFrom?_value (remaining : Nat) (hresult : Fits result) (hfactor : Fits factor)
    (hzero : result = 0 → factor = 0) (hle : |result * factor ^ remaining| ≤ productFloor) :
    (powerFrom? result factor remaining).value = some (result * factor ^ remaining) := by
  induction remaining using Nat.strong_induction_on generalizing result factor with
  | h remaining ih =>
    obtain hnone | hne := eq_or_ne remaining 0
    · rw [hnone, powerFrom?, if_pos rfl, pow_zero, mul_one]
      rfl
    -- The invariant is that the product so far times the power still due stays the same.
    · obtain ⟨hproduct, hsquare⟩ := passes_of_power hresult hfactor hzero hne hle
      have hrest : ∀ product, product = result * factor ^ (remaining % 2) → Fits product →
          (product = 0 → factor = 0) →
          (squaredFrom? product factor (remaining / 2)).value =
            some (result * factor ^ remaining) := by
        intro product hproduct hfits hzero
        rw [pow_halves factor remaining, ← mul_assoc, ← hproduct] at hle ⊢
        unfold squaredFrom?
        split
        · next hhalf => rw [hhalf, pow_zero, mul_one]; rfl
        · next hhalf =>
          have hpasses := hsquare hhalf
          have hfits' := fits_of_abs_le (abs_le_of_passes hfactor hfactor hpasses)
          rw [value_product?_elim hpasses]
          exact ih _ (by omega) hfits hfits' (fun h => by rw [hzero h, mul_zero]) hle
      obtain heven | hodd := Nat.mod_two_eq_zero_or_one remaining
      · rw [powerFrom?_even hne heven]
        exact hrest result (by rw [heven, pow_zero, mul_one]) hresult hzero
      · have hfits := fits_of_abs_le (abs_le_of_passes hresult hfactor hproduct)
        rw [powerFrom?_odd hodd, value_product?_elim hproduct]
        refine hrest (result * factor) (by rw [hodd, pow_one]) hfits fun h => ?_
        exact (mul_eq_zero.mp h).elim hzero id

end Word

end DiceFormula
