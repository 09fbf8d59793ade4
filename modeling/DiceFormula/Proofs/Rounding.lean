import DiceFormula.Binary64.Basic
import Mathlib.Algebra.Order.Field.Power
import Mathlib.Algebra.Order.Field.Rat
import Mathlib.Tactic.FieldSimp
import Mathlib.Tactic.Linarith
import Mathlib.Tactic.NormNum
import Mathlib.Tactic.Positivity
import Mathlib.Tactic.Ring

/-! How far rounding moves a number. A rational that is neither tiny nor huge is moved by at most
half a unit of its last significant place, and errors of this kind add up under products and
repeated rounding. -/
namespace DiceFormula.Binary64

/-- A value that misses a number by at most this part of it. -/
def Near (ε x q : ℚ) : Prop := |x - q| ≤ |q| * ε

section Near
variable {δ ε x y p q : ℚ}

theorem Near.abs_le (h : Near ε x q) : |x| ≤ |q| * (1 + ε) := by
  have htriangle := abs_sub_abs_le_abs_sub x q
  unfold Near at h
  linarith

theorem Near.le_abs (h : Near ε x q) : |q| * (1 - ε) ≤ |x| := by
  have htriangle := abs_sub_abs_le_abs_sub q x
  rw [abs_sub_comm] at htriangle
  unfold Near at h
  linarith

theorem Near.trans (hε : 0 ≤ ε) (hy : Near δ y q) (hx : Near ε x y) : Near (δ + ε + δ * ε) x q := by
  have htriangle := abs_sub_le x y q
  have hscaled := mul_le_mul_of_nonneg_right hy.abs_le hε
  unfold Near at *
  linarith

theorem Near.mul (hx : Near δ x p) (hy : Near ε y q) : Near (δ + ε + δ * ε) (x * y) (p * q) := by
  have hsplit : x * y - p * q = (x - p) * (y - q) + p * (y - q) + (x - p) * q := by ring
  have hboth : |(x - p) * (y - q)| ≤ |p| * δ * (|q| * ε) := by
    rw [abs_mul]
    exact mul_le_mul hx hy (abs_nonneg _) ((abs_nonneg _).trans hx)
  have hright : |p * (y - q)| ≤ |p| * (|q| * ε) := by
    rw [abs_mul]
    exact mul_le_mul_of_nonneg_left hy (abs_nonneg p)
  have hleft : |(x - p) * q| ≤ |p| * δ * |q| := by
    rw [abs_mul]
    exact mul_le_mul_of_nonneg_right hx (abs_nonneg q)
  have htriangle := abs_add_three ((x - p) * (y - q)) (p * (y - q)) ((x - p) * q)
  unfold Near
  rw [hsplit, abs_mul]
  linarith

end Near

theorem two_pow_toNat (e : ℤ) : (2 : ℚ) ^ e.toNat = 2 ^ e * 2 ^ (-e).toNat := by
  rw [← zpow_natCast, ← zpow_natCast, ← zpow_add₀ two_ne_zero]
  congr 1
  omega

theorem scaled_eq (n : Nat) (e : ℤ) : scaled n e = n * 2 ^ e := by
  have hpower : (2 : ℚ) ^ (-e).toNat ≠ 0 := pow_ne_zero _ two_ne_zero
  simp only [scaled, Rat.mkRat_eq_div, Nat.shiftLeft_eq]
  push_cast
  rw [two_pow_toNat, one_mul]
  field_simp

theorem nearestEven_error (num : Nat) {den : Nat} (hden : 0 < den) :
    |(nearestEven num den : ℚ) - num / den| ≤ 1 / 2 := by
  have hdivision : (den : ℚ) * (num / den : ℕ) + (num % den : ℕ) = num := by
    exact_mod_cast Nat.div_add_mod num den
  have hpos : (0 : ℚ) < den := by exact_mod_cast hden
  have hquotient : (num : ℚ) / den = (num / den : ℕ) + (num % den : ℕ) / den := by
    rw [← hdivision]
    field_simp
  have hrest : (0 : ℚ) ≤ (num % den : ℕ) / den := by positivity
  have hless : ((num % den : ℕ) : ℚ) / den < 1 := by
    rw [div_lt_one hpos]
    exact_mod_cast Nat.mod_lt num hden
  rw [hquotient, abs_le]
  unfold nearestEven
  dsimp only
  split
  · next hbelow =>
    have hhalf : ((num % den : ℕ) : ℚ) / den < 1 / 2 := by
      rw [div_lt_div_iff₀ hpos two_pos, one_mul, mul_comm]
      exact_mod_cast hbelow
    constructor <;> linarith
  · next hbelow =>
    have hhalf : 1 / 2 ≤ ((num % den : ℕ) : ℚ) / den := by
      rw [div_le_div_iff₀ two_pos hpos, one_mul, mul_comm]
      exact_mod_cast not_lt.mp hbelow
    split
    · push_cast
      constructor <;> linarith
    · next habove =>
      have hhalf' : ((num % den : ℕ) : ℚ) / den ≤ 1 / 2 := by
        rw [div_le_div_iff₀ hpos two_pos, one_mul, mul_comm]
        exact_mod_cast not_lt.mp habove
      have hparity : ((num / den % 2 : ℕ) : ℚ) ≤ 1 := by
        exact_mod_cast Nat.le_of_lt_succ (Nat.mod_lt (num / den) two_pos)
      have hparity' : (0 : ℚ) ≤ (num / den % 2 : ℕ) := Nat.cast_nonneg _
      rw [Nat.cast_add]
      constructor <;> linarith

theorem abs_eq_div (q : ℚ) : |q| = q.num.natAbs / q.den := by
  have hq := Rat.num_div_den q
  conv_lhs => rw [← hq, abs_div, Nat.abs_cast]
  rw [Nat.cast_natAbs, Int.cast_abs]

theorem shiftLeft_le_iff (n : Nat) {d : Nat} (hd : 0 < d) (e : ℤ) :
    d <<< e.toNat ≤ n <<< (-e).toNat ↔ (2 : ℚ) ^ e ≤ n / d := by
  have hpos : (0 : ℚ) < d := by exact_mod_cast hd
  have hpower : (0 : ℚ) < 2 ^ (-e).toNat := by positivity
  rw [Nat.shiftLeft_eq, Nat.shiftLeft_eq, le_div_iff₀ hpos, ← mul_le_mul_iff_left₀ hpower,
    mul_right_comm, ← two_pow_toNat, mul_comm _ (d : ℚ)]
  exact_mod_cast Iff.rfl

theorem exponent_spec {q : ℚ} (hq : q ≠ 0) :
    (2 : ℚ) ^ exponent q ≤ |q| ∧ |q| < 2 ^ (exponent q + 1) := by
  have hnum : q.num.natAbs ≠ 0 := by simpa using hq
  have hnlow : (2 : ℚ) ^ q.num.natAbs.log2 ≤ q.num.natAbs := by exact_mod_cast Nat.log2_self_le hnum
  have hnhigh : (q.num.natAbs : ℚ) < 2 ^ (q.num.natAbs.log2 + 1) := by
    exact_mod_cast Nat.lt_log2_self
  have hdlow : (2 : ℚ) ^ q.den.log2 ≤ q.den := by exact_mod_cast Nat.log2_self_le q.den_nz
  have hdhigh : (q.den : ℚ) < 2 ^ (q.den.log2 + 1) := by exact_mod_cast Nat.lt_log2_self
  have hpos : (0 : ℚ) < q.den := by exact_mod_cast q.den_pos
  rw [abs_eq_div]
  have hlow : (2 : ℚ) ^ ((q.num.natAbs.log2 : ℤ) - q.den.log2 - 1) ≤ q.num.natAbs / q.den := by
    have hpower : (2 : ℚ) ^ ((q.num.natAbs.log2 : ℤ) - q.den.log2 - 1) =
        2 ^ q.num.natAbs.log2 / 2 ^ (q.den.log2 + 1) := by
      rw [sub_sub, zpow_sub₀ two_ne_zero]
      norm_cast
    rw [hpower]
    exact div_le_div₀ (Nat.cast_nonneg _) hnlow hpos hdhigh.le
  have hhigh : q.num.natAbs / q.den < (2 : ℚ) ^ ((q.num.natAbs.log2 : ℤ) - q.den.log2 + 1) := by
    have hpower : (2 : ℚ) ^ ((q.num.natAbs.log2 : ℤ) - q.den.log2 + 1) =
        2 ^ (q.num.natAbs.log2 + 1) / 2 ^ q.den.log2 := by
      rw [sub_add_eq_add_sub, zpow_sub₀ two_ne_zero]
      norm_cast
    rw [hpower]
    exact div_lt_div₀ hnhigh hdlow (by positivity) (by positivity)
  unfold exponent
  dsimp only
  split
  · next h => exact ⟨(shiftLeft_le_iff _ q.den_pos _).mp h, hhigh⟩
  · next h =>
    rw [shiftLeft_le_iff _ q.den_pos, not_le] at h
    exact ⟨hlow, by rwa [sub_add_cancel]⟩

theorem le_exponent_iff {q : ℚ} (hq : q ≠ 0) (k : ℤ) : k ≤ exponent q ↔ (2 : ℚ) ^ k ≤ |q| := by
  obtain ⟨hlow, hhigh⟩ := exponent_spec hq
  constructor
  · intro hk
    exact (zpow_le_zpow_right₀ one_le_two hk).trans hlow
  · intro hk
    exact Int.le_of_lt_add_one ((zpow_lt_zpow_iff_right₀ one_lt_two).mp (hk.trans_lt hhigh))

theorem significand_error (q : ℚ) :
    |(significand q : ℚ) * 2 ^ spacing q - (|q|)| ≤ 2 ^ spacing q / 2 := by
  have hunit : (0 : ℚ) < 2 ^ spacing q := by positivity
  have hden : 0 < q.den <<< (spacing q).toNat := by
    rw [Nat.shiftLeft_eq]
    exact Nat.mul_pos q.den_pos (Nat.two_pow_pos _)
  have hquotient : ((q.num.natAbs <<< (-spacing q).toNat : ℕ) : ℚ) /
      (q.den <<< (spacing q).toNat : ℕ) = |q| / 2 ^ spacing q := by
    have hpower : (2 : ℚ) ^ (-spacing q).toNat ≠ 0 := by positivity
    rw [abs_eq_div, Nat.shiftLeft_eq, Nat.shiftLeft_eq]
    push_cast
    rw [two_pow_toNat (spacing q)]
    field_simp
  have herror := nearestEven_error (q.num.natAbs <<< (-spacing q).toNat) hden
  rw [hquotient] at herror
  calc |(significand q : ℚ) * 2 ^ spacing q - (|q|)|
      = |(significand q : ℚ) - |q| / 2 ^ spacing q| * 2 ^ spacing q := by
        rw [← abs_of_pos hunit, ← abs_mul, abs_of_pos hunit, sub_mul, div_mul_cancel₀ _ hunit.ne']
    _ ≤ 1 / 2 * 2 ^ spacing q := mul_le_mul_of_nonneg_right herror hunit.le
    _ = 2 ^ spacing q / 2 := by ring

/-- A number in the normal range stays finite and is off by at most one part in `2 ^ 53`. -/
theorem round_near {q : ℚ} (hlow : (2 : ℚ) ^ (-1022 : ℤ) ≤ |q|) (hhigh : |q| < 2 ^ (1023 : ℤ)) :
    ∃ x, round q = .finite x ∧ Near (1 / 2 ^ 53) x q := by
  have hq : q ≠ 0 := by
    rintro rfl
    rw [abs_zero] at hlow
    exact absurd hlow (not_le.mpr (zpow_pos two_pos _))
  have hnormal : -1022 ≤ exponent q := (le_exponent_iff hq _).mpr hlow
  have hspacing : spacing q = exponent q - 52 := max_eq_left (by omega)
  have hpower : (2 : ℚ) ^ spacing q / 2 = 2 ^ exponent q * (1 / 2 ^ 53) := by
    rw [hspacing, zpow_sub₀ two_ne_zero]
    norm_num
    ring
  have hnear : Near (1 / 2 ^ 53) (significand q * 2 ^ spacing q) |q| := by
    rw [Near, abs_abs]
    refine (significand_error q).trans ?_
    rw [hpower]
    exact mul_le_mul_of_nonneg_right (exponent_spec hq).1 (by positivity)
  have hmagnitude : scaled (significand q) (spacing q) = significand q * 2 ^ spacing q :=
    scaled_eq _ _
  have hnonneg : (0 : ℚ) ≤ significand q * 2 ^ spacing q :=
    mul_nonneg (Nat.cast_nonneg _) (zpow_pos two_pos _).le
  have hpos : 0 < |q| := abs_pos.mpr hq
  have hzero : (significand q : ℚ) * 2 ^ spacing q ≠ 0 := by
    have hle := hnear.le_abs
    rw [abs_abs, abs_of_nonneg hnonneg] at hle
    have hmost : 0 < |q| * (1 - 1 / 2 ^ 53) := mul_pos hpos (by norm_num)
    exact (hmost.trans_le hle).ne'
  have hfinite : ¬ scaled 1 1024 ≤ significand q * 2 ^ spacing q := by
    have hle := hnear.abs_le
    rw [abs_abs, abs_of_nonneg hnonneg] at hle
    have hdouble : |q| * (1 + 1 / 2 ^ 53) ≤ |q| * 2 :=
      mul_le_mul_of_nonneg_left (by norm_num) hpos.le
    have hlimit : (2 : ℚ) ^ (1024 : ℤ) = 2 ^ (1023 : ℤ) * 2 := zpow_add_one₀ two_ne_zero 1023
    rw [scaled_eq, Nat.cast_one, one_mul, not_le, hlimit]
    exact (hle.trans hdouble).trans_lt (mul_lt_mul_of_pos_right hhigh two_pos)
  have hround : round q =
      .finite (if q < 0 then -(significand q * 2 ^ spacing q)
        else significand q * 2 ^ spacing q) := by
    rw [round, if_neg hq]
    dsimp only
    rw [hmagnitude, if_neg hzero, if_neg hfinite]
  refine ⟨_, hround, ?_⟩
  rw [Near, abs_abs] at hnear
  unfold Near
  split
  · next hneg =>
    rw [abs_of_neg hneg] at hnear ⊢
    rw [abs_sub_comm] at hnear
    convert hnear using 1
    congr 1
    ring
  · next hneg =>
    rwa [abs_of_nonneg (not_lt.mp hneg)] at hnear ⊢

theorem round_near_of_le {q : ℚ} (hlow : 1 / 2 ≤ |q|) (hhigh : |q| ≤ 2 ^ 128) :
    ∃ x, round q = .finite x ∧ Near (1 / 2 ^ 53) x q := by
  refine round_near (le_trans ?_ hlow) (hhigh.trans_lt ?_)
  · rw [one_div, ← zpow_neg_one]
    exact zpow_le_zpow_right₀ one_le_two (by norm_num)
  · rw [← zpow_natCast]
    exact zpow_lt_zpow_right₀ one_lt_two (by norm_num)

end DiceFormula.Binary64
