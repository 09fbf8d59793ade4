import DiceFormula.Proofs.Definite
import DiceFormula.Proofs.Rounding
import Mathlib.Data.Prod.Lex

/-! Comparisons of numbers. Rounding never puts two rationals the other way round, so that the order
of integers and the order of reals fit together. They do not make one order: different integers can
be equal to the same real. -/
namespace DiceFormula

namespace Binary64

/-- Where a number stands among all numbers, the infinities outside of all rationals. -/
def rank (x : Binary64) : ℤ ×ₗ ℚ := toLex (x.place.getD (0, 0))

section Rank
variable {x y : Binary64}

theorem place_eq_some (h : x.isNaN = false) : x.place = some (ofLex x.rank) := by
  cases x with
  | nan => cases h
  | infinite | zero | finite => rfl

theorem lt_iff_rank (hx : x.isNaN = false) (hy : y.isNaN = false) :
    x.lt y = true ↔ x.rank < y.rank := by
  rw [lt, place_eq_some hx, place_eq_some hy, Prod.Lex.lt_iff]
  simp only [Bool.or_eq_true, Bool.and_eq_true, decide_eq_true_eq, beq_iff_eq]

theorem same_iff_rank (hx : x.isNaN = false) (hy : y.isNaN = false) :
    x.same y = true ↔ x.rank = y.rank := by
  rw [same, place_eq_some hx, place_eq_some hy, beq_iff_eq]
  exact ofLex_inj

end Rank

/-- The distance from zero that a rational is rounded to, if nothing is too great. -/
def magnitude (q : ℚ) : ℚ := significand q * 2 ^ spacing q

def rounded (q : ℚ) : ℚ := if q < 0 then -magnitude q else magnitude q

def overflow : ℚ := scaled 1 1024

def standing (x : ℚ) : ℤ ×ₗ ℚ :=
  if overflow ≤ x then toLex (1, 0) else if x ≤ -overflow then toLex (-1, 0) else toLex (0, x)

section Round
variable {p q x y : ℚ} {n : ℕ}

theorem magnitude_nonneg (q : ℚ) : 0 ≤ magnitude q :=
  mul_nonneg (Nat.cast_nonneg _) (zpow_pos two_pos _).le

theorem magnitude_neg (q : ℚ) : magnitude (-q) = magnitude q := by
  simp only [magnitude, significand, spacing, exponent, Rat.num_neg_eq_neg_num, Rat.den_neg_eq_den,
    Int.natAbs_neg]

theorem le_of_units_lt {m n : ℕ} {k : ℤ} (h : (m : ℚ) * 2 ^ k < (n + 1 : ℕ) * 2 ^ k) : m ≤ n := by
  have hless : (m : ℚ) < (n + 1 : ℕ) := lt_of_mul_lt_mul_right h (zpow_pos two_pos k).le
  exact Nat.le_of_lt_succ (Nat.cast_lt.mp hless)

theorem two_pow_units {j k : ℤ} (h : j + n = k) : (2 : ℚ) ^ k = (2 ^ n : ℕ) * 2 ^ j := by
  rw [Nat.cast_pow, Nat.cast_ofNat, ← zpow_natCast, ← zpow_add₀ two_ne_zero, ← h, add_comm]

theorem significand_le (h : |q| ≤ n * 2 ^ spacing q) : significand q ≤ n := by
  have hunit : (0 : ℚ) < 2 ^ spacing q := zpow_pos two_pos _
  have herror := (abs_le.mp (significand_error q)).2
  refine le_of_units_lt (k := spacing q) ?_
  push_cast
  linarith

theorem le_significand (h : n * 2 ^ spacing q ≤ |q|) : n ≤ significand q := by
  have hunit : (0 : ℚ) < 2 ^ spacing q := zpow_pos two_pos _
  have herror := (abs_le.mp (significand_error q)).1
  refine le_of_units_lt (k := spacing q) ?_
  push_cast
  linarith

theorem magnitude_le (h : |q| ≤ n * 2 ^ spacing q) : magnitude q ≤ n * 2 ^ spacing q :=
  mul_le_mul_of_nonneg_right (by exact_mod_cast significand_le h) (zpow_pos two_pos _).le

theorem le_magnitude (h : n * 2 ^ spacing q ≤ |q|) : n * 2 ^ spacing q ≤ magnitude q :=
  mul_le_mul_of_nonneg_right (by exact_mod_cast le_significand h) (zpow_pos two_pos _).le

theorem magnitude_eq_abs (h : |q| = n * 2 ^ spacing q) : magnitude q = |q| :=
  le_antisymm (h ▸ magnitude_le h.le) (h ▸ le_magnitude h.ge)

@[simp] theorem magnitude_zero : magnitude 0 = 0 := by
  have habs : |(0 : ℚ)| = (0 : ℕ) * 2 ^ spacing 0 := by simp
  rw [magnitude_eq_abs habs, abs_zero]

theorem magnitude_le_two_pow {k : ℤ} (hunit : spacing q ≤ k) (h : |q| ≤ 2 ^ k) :
    magnitude q ≤ 2 ^ k := by
  obtain ⟨n, hn⟩ := Int.le.dest hunit
  rw [two_pow_units hn] at h ⊢
  exact magnitude_le h

theorem two_pow_le_magnitude (hnormal : spacing q = exponent q - 52) (hq : q ≠ 0) :
    2 ^ exponent q ≤ magnitude q := by
  have hmultiple : (2 : ℚ) ^ exponent q = (2 ^ 52 : ℕ) * 2 ^ spacing q := two_pow_units (by omega)
  have hlow := (exponent_spec hq).1
  rw [hmultiple] at hlow ⊢
  exact le_magnitude hlow

theorem exponent_mono (hp : p ≠ 0) (h : |p| ≤ |q|) : exponent p ≤ exponent q := by
  have hq : q ≠ 0 := abs_pos.mp ((abs_pos.mpr hp).trans_le h)
  exact (le_exponent_iff hq _).mpr ((exponent_spec hp).1.trans h)

/-- With one spacing the error of half a unit cannot turn two numbers round; with two of them, the
power of two where the wider spacing begins lies between the rounded numbers. -/
theorem magnitude_mono_of_lt (hp : p ≠ 0) (h : |p| < |q|) : magnitude p ≤ magnitude q := by
  have hq : q ≠ 0 := abs_pos.mp ((abs_nonneg p).trans_lt h)
  have hexponent := exponent_mono hp h.le
  by_cases hsame : spacing p = spacing q
  · have hunit : (0 : ℚ) < 2 ^ spacing q := zpow_pos two_pos _
    have hbelow := (abs_le.mp (significand_error p)).2
    have habove := (abs_le.mp (significand_error q)).1
    have hle : significand p ≤ significand q := by
      rw [hsame] at hbelow
      refine le_of_units_lt (k := spacing q) ?_
      push_cast
      linarith
    rw [magnitude, magnitude, hsame]
    exact mul_le_mul_of_nonneg_right (by exact_mod_cast hle) hunit.le
  · have hnormal : spacing q = exponent q - 52 := by unfold spacing at *; omega
    have hless : exponent p + 1 ≤ exponent q := by unfold spacing at *; omega
    have hunit : spacing p ≤ exponent q := by unfold spacing at *; omega
    have hhigh : |p| ≤ 2 ^ exponent q :=
      (exponent_spec hp).2.le.trans (zpow_le_zpow_right₀ one_le_two hless)
    exact (magnitude_le_two_pow hunit hhigh).trans (two_pow_le_magnitude hnormal hq)

theorem magnitude_mono (h : |p| ≤ |q|) : magnitude p ≤ magnitude q := by
  obtain rfl | hp := eq_or_ne p 0
  · rw [magnitude_zero]
    exact magnitude_nonneg q
  · obtain hlt | heq := h.lt_or_eq
    · exact magnitude_mono_of_lt hp hlt
    · obtain rfl | rfl := abs_eq_abs.mp heq
      · exact le_rfl
      · exact (magnitude_neg q).le

theorem rounded_mono (h : p ≤ q) : rounded p ≤ rounded q := by
  have hp := magnitude_nonneg p
  have hq := magnitude_nonneg q
  unfold rounded
  split
  · next hneg =>
    split
    · next hneg' =>
      rw [neg_le_neg_iff]
      exact magnitude_mono (by rw [abs_of_neg hneg, abs_of_neg hneg']; linarith)
    · linarith
  · next hnonneg =>
    have hpos := not_lt.mp hnonneg
    rw [if_neg (not_lt.mpr (hpos.trans h))]
    exact magnitude_mono (by rwa [abs_of_nonneg hpos, abs_of_nonneg (hpos.trans h)])

theorem overflow_eq : overflow = 2 ^ (1024 : ℤ) := by
  rw [overflow, scaled_eq, Nat.cast_one, one_mul]

theorem overflow_pos : 0 < overflow := overflow_eq ▸ zpow_pos two_pos _

theorem standing_of_abs_lt (h : |x| < overflow) : standing x = toLex (0, x) := by
  obtain ⟨hlow, hhigh⟩ := abs_lt.mp h
  rw [standing, if_neg (not_le.mpr hhigh), if_neg (not_le.mpr hlow)]

theorem standing_mono (h : x ≤ y) : standing x ≤ standing y := by
  have hpos := overflow_pos
  unfold standing
  rw [Prod.Lex.le_iff]
  split_ifs <;> simp <;> linarith

theorem rank_round (q : ℚ) : (round q).rank = standing (rounded q) := by
  have hpos := overflow_pos
  have hnonneg := magnitude_nonneg q
  have hmagnitude : scaled (significand q) (spacing q) = magnitude q := scaled_eq _ _
  have hzero : standing 0 = toLex (0, 0) := standing_of_abs_lt (by rwa [abs_zero])
  unfold round rounded
  dsimp only
  rw [hmagnitude, ← overflow]
  split
  · next hq =>
    rw [hq, if_neg (lt_irrefl 0), magnitude_zero, hzero]
    rfl
  · split
    · next hsmall =>
      rw [hsmall, neg_zero, ite_self, hzero]
      rfl
    · split
      · next hgreat =>
        split
        · next hneg =>
          rw [standing, if_neg (by linarith), if_pos (neg_le_neg hgreat), decide_eq_true hneg]
          rfl
        · next hneg =>
          rw [standing, if_pos hgreat, decide_eq_false hneg]
          rfl
      · next hless =>
        have hfinite := not_le.mp hless
        split
        · rw [standing_of_abs_lt (by rwa [abs_neg, abs_of_nonneg hnonneg])]
          rfl
        · rw [standing_of_abs_lt (by rwa [abs_of_nonneg hnonneg])]
          rfl

theorem rank_round_mono (h : p ≤ q) : (round p).rank ≤ (round q).rank := by
  rw [rank_round, rank_round]
  exact standing_mono (rounded_mono h)

end Round

theorem exists_units {m : ℤ} (h : |m| ≤ 2 ^ 53) : ∃ n : ℕ, |(m : ℚ)| = n * 2 ^ spacing (m : ℚ) := by
  obtain rfl | hm := eq_or_ne m 0
  · exact ⟨0, by simp⟩
  · have hq : (m : ℚ) ≠ 0 := by exact_mod_cast hm
    have hle : |(m : ℚ)| ≤ 2 ^ (53 : ℤ) := by exact_mod_cast h
    have hmost : exponent (m : ℚ) ≤ 53 :=
      (zpow_le_zpow_iff_right₀ one_lt_two).mp ((exponent_spec hq).1.trans hle)
    by_cases hunit : spacing (m : ℚ) ≤ 0
    · refine ⟨m.natAbs * 2 ^ (-spacing (m : ℚ)).toNat, ?_⟩
      have hone : (2 : ℚ) ^ (0 : ℤ) = (2 ^ (-spacing (m : ℚ)).toNat : ℕ) * 2 ^ spacing (m : ℚ) :=
        two_pow_units (by omega)
      rw [Nat.cast_mul, mul_assoc, ← hone, zpow_zero, mul_one, Nat.cast_natAbs, Int.cast_abs]
    · have hexponent : exponent (m : ℚ) = 53 := by unfold spacing at hunit; omega
      have hspacing : spacing (m : ℚ) = 1 := by unfold spacing; omega
      have hgreatest := (exponent_spec hq).1
      rw [hexponent] at hgreatest
      refine ⟨2 ^ 52, ?_⟩
      rw [hspacing, le_antisymm hle hgreatest]
      norm_num

theorem rank_ofInt {m : ℤ} (h : |m| ≤ 2 ^ 53) : (ofInt m).rank = toLex (0, (m : ℚ)) := by
  obtain ⟨n, hn⟩ := exists_units h
  have hexact : rounded m = m := by
    unfold rounded
    rw [magnitude_eq_abs hn]
    split
    · next hneg => rw [abs_of_neg hneg, neg_neg]
    · next hnonneg => rw [abs_of_nonneg (not_lt.mp hnonneg)]
  have hless : |(m : ℚ)| < overflow := by
    have hle : |(m : ℚ)| ≤ 2 ^ (53 : ℤ) := by exact_mod_cast h
    rw [overflow_eq]
    exact hle.trans_lt (zpow_lt_zpow_right₀ one_lt_two (by norm_num))
  rw [ofInt, rank_round, hexact, standing_of_abs_lt hless]

end Binary64

namespace Number

open Binary64

variable {a b c : Number}

def rank (a : Number) : ℤ ×ₗ ℚ := a.toReal.rank

theorem rank_int_mono {m n : ℤ} (h : m ≤ n) : (int m).rank ≤ (int n).rank :=
  rank_round_mono (by exact_mod_cast h)

def Mixed (a b : Number) : Prop := ¬ ∃ m n, a = .int m ∧ b = .int n

theorem lt_iff_rank (ha : a.Definite) (hb : b.Definite) (h : Mixed a b) :
    a.lt b = true ↔ a.rank < b.rank := by
  cases a with
  | real x => exact Binary64.lt_iff_rank ha hb
  | int m =>
    cases b with
    | real y => exact Binary64.lt_iff_rank ha hb
    | int n => exact absurd ⟨m, n, rfl, rfl⟩ h

theorem same_iff_rank (ha : a.Definite) (hb : b.Definite) (h : Mixed a b) :
    a.same b = true ↔ a.rank = b.rank := by
  cases a with
  | real x => exact Binary64.same_iff_rank ha hb
  | int m =>
    cases b with
    | real y => exact Binary64.same_iff_rank ha hb
    | int n => exact absurd ⟨m, n, rfl, rfl⟩ h

theorem rank_le_of_lt (ha : a.Definite) (hb : b.Definite) (h : a.lt b = true) :
    a.rank ≤ b.rank := by
  by_cases hints : ∃ m n, a = .int m ∧ b = .int n
  · obtain ⟨m, n, rfl, rfl⟩ := hints
    rw [lt_int, decide_eq_true_eq] at h
    exact rank_int_mono h.le
  · exact ((lt_iff_rank ha hb hints).mp h).le

theorem lt_of_rank_lt (ha : a.Definite) (hb : b.Definite) (h : a.rank < b.rank) :
    a.lt b = true := by
  by_cases hints : ∃ m n, a = .int m ∧ b = .int n
  · obtain ⟨m, n, rfl, rfl⟩ := hints
    rw [lt_int, decide_eq_true_eq]
    exact lt_of_not_ge fun hle => h.not_ge (rank_int_mono hle)
  · exact (lt_iff_rank ha hb hints).mpr h

theorem rank_eq_of_same (ha : a.Definite) (hb : b.Definite) (h : a.same b = true) :
    a.rank = b.rank := by
  by_cases hints : ∃ m n, a = .int m ∧ b = .int n
  · obtain ⟨m, n, rfl, rfl⟩ := hints
    rw [same_int, beq_iff_eq] at h
    rw [h]
  · exact (same_iff_rank ha hb hints).mp h

theorem lt_self (ha : a.Definite) : a.lt a = false := by
  cases a with
  | int m => rw [lt_int, decide_eq_false (lt_irrefl m)]
  | real x =>
    have hreal : Mixed (.real x) (.real x) := by rintro ⟨m, n, h, -⟩; cases h
    exact Bool.eq_false_iff.mpr fun h => lt_irrefl _ ((lt_iff_rank ha ha hreal).mp h)

/-- An integer below another one may have the same rank, but a comparison with a real is between
different ranks. -/
theorem lt_trans_of_definite (ha : a.Definite) (hb : b.Definite) (hc : c.Definite)
    (hab : a.lt b = true) (hbc : b.lt c = true) : a.lt c = true := by
  by_cases hints : ∃ m n, a = .int m ∧ b = .int n
  · obtain ⟨m, n, rfl, rfl⟩ := hints
    cases c with
    | int k =>
      rw [lt_int, decide_eq_true_eq] at hab hbc ⊢
      exact hab.trans hbc
    | real x =>
      have hmixed (k : ℤ) : Mixed (.int k) (.real x) := by rintro ⟨_, _, _, h⟩; cases h
      have hless := (lt_iff_rank hb hc (hmixed n)).mp hbc
      exact (lt_iff_rank ha hc (hmixed m)).mpr ((rank_le_of_lt ha hb hab).trans_lt hless)
  · have hless := (lt_iff_rank ha hb hints).mp hab
    exact lt_of_rank_lt ha hc (hless.trans_le (rank_le_of_lt hb hc hbc))

theorem Mixed.symm (h : Mixed a b) : Mixed b a := fun ⟨m, n, hb, ha⟩ => h ⟨n, m, ha, hb⟩

theorem same_comm (ha : a.Definite) (hb : b.Definite) : a.same b = b.same a := by
  by_cases hints : ∃ m n, a = .int m ∧ b = .int n
  · obtain ⟨m, n, rfl, rfl⟩ := hints
    exact Bool.beq_comm
  · rw [Bool.eq_iff_iff, same_iff_rank ha hb hints, same_iff_rank hb ha (Mixed.symm hints)]
    exact eq_comm

theorem count_comparisons (ha : a.Definite) (hb : b.Definite) :
    [a.lt b, a.same b, b.lt a].count true = 1 := by
  by_cases hints : ∃ m n, a = .int m ∧ b = .int n
  · obtain ⟨m, n, rfl, rfl⟩ := hints
    rw [lt_int, lt_int, same_int]
    rcases lt_trichotomy m n with h | rfl | h
    · simp [h, h.ne, h.le]
    · simp
    · simp [h, h.ne', h.le]
  · have hlt := lt_iff_rank ha hb hints
    have hsame := same_iff_rank ha hb hints
    have hgt := lt_iff_rank hb ha (Mixed.symm hints)
    rcases lt_trichotomy a.rank b.rank with h | h | h
    · rw [hlt.mpr h, Bool.eq_false_iff.mpr (hsame.not.mpr h.ne),
        Bool.eq_false_iff.mpr (hgt.not.mpr h.not_gt)]
      rfl
    · rw [Bool.eq_false_iff.mpr (hlt.not.mpr h.not_lt), hsame.mpr h,
        Bool.eq_false_iff.mpr (hgt.not.mpr h.not_gt)]
      rfl
    · rw [Bool.eq_false_iff.mpr (hlt.not.mpr h.not_gt),
        Bool.eq_false_iff.mpr (hsame.not.mpr h.ne'), hgt.mpr h]
      rfl

/-- Two different integers that are equal to one real. -/
def Straddles (a b c : Number) : Prop := ∃ m x n, a = .int m ∧ b = .real x ∧ c = .int n ∧ m ≠ n

theorem same_trans_iff (ha : a.Definite) (hb : b.Definite) (hc : c.Definite) (hab : a.same b = true)
    (hbc : b.same c = true) : a.same c = true ↔ ¬ Straddles a b c := by
  constructor
  · rintro hac ⟨m, x, n, rfl, rfl, rfl, hne⟩
    rw [same_int, beq_iff_eq] at hac
    exact hne hac
  · intro hno
    by_cases hints : ∃ m n, a = .int m ∧ c = .int n
    · obtain ⟨m, n, rfl, rfl⟩ := hints
      cases b with
      | int k =>
        rw [same_int, beq_iff_eq] at hab hbc ⊢
        exact hab.trans hbc
      | real x =>
        by_contra hne
        rw [same_int, beq_iff_eq] at hne
        exact hno ⟨m, x, n, rfl, rfl, rfl, hne⟩
    · exact (same_iff_rank ha hc hints).mpr
        ((rank_eq_of_same ha hb hab).trans (rank_eq_of_same hb hc hbc))

theorem not_straddles (ha : a.Definite) (hb : b.Definite) (hc : c.Definite) (hab : a.same b = true)
    (hbc : b.same c = true) (hsmall : ∀ n, a = .int n ∨ c = .int n → |n| ≤ 2 ^ 53) :
    ¬ Straddles a b c := by
  rintro ⟨m, x, n, rfl, rfl, rfl, hne⟩
  have hrank := (rank_eq_of_same ha hb hab).trans (rank_eq_of_same hb hc hbc)
  have hm : (int m).rank = toLex (0, (m : ℚ)) := rank_ofInt (hsmall m (.inl rfl))
  have hn : (int n).rank = toLex (0, (n : ℚ)) := rank_ofInt (hsmall n (.inr rfl))
  rw [hm, hn] at hrank
  exact hne (by exact_mod_cast (Prod.mk.inj hrank).2)

/-- Less is a strict order, of less, equal and greater exactly one holds, and equality is reflexive
and symmetric. Equality is transitive except between two different integers that are equal to one
real, of which one is beyond `2 ^ 53`. -/
theorem comparisons_of_definite (a b c : Number) (ha : a.Definite) (hb : b.Definite)
    (hc : c.Definite) :
    a.lt a = false ∧ (a.lt b = true → b.lt c = true → a.lt c = true) ∧
      [a.lt b, a.same b, b.lt a].count true = 1 ∧ a.same a = true ∧ a.same b = b.same a ∧
      (a.same b = true → b.same c = true →
        (a.same c = true ↔ ¬ Straddles a b c) ∧
        ((∀ n, a = .int n ∨ c = .int n → |n| ≤ 2 ^ 53) → a.same c = true)) := by
  refine ⟨lt_self ha, lt_trans_of_definite ha hb hc, count_comparisons ha hb, same_self ha,
    same_comm ha hb, fun hab hbc => ?_⟩
  have htrans := same_trans_iff ha hb hc hab hbc
  exact ⟨htrans, fun hsmall => htrans.mpr (not_straddles ha hb hc hab hbc hsmall)⟩

theorem comparisons_of_definite_straddled :
    (Number.int 9007199254740993).lt (.int 9007199254740996) = true ∧
    ¬ ((Number.int 9007199254740993).same (.int 9007199254740992) = true) := by
  constructor
  · obtain ⟨-, htrans, -⟩ := comparisons_of_definite (.int 9007199254740993)
      (.real (.finite 9007199254740994)) (.int 9007199254740996)
      (definite_int _) rfl (definite_int _)
    exact htrans (by decide +kernel) (by decide +kernel)
  · obtain ⟨-, -, -, -, -, hsame⟩ := comparisons_of_definite (.int 9007199254740993)
      (.real (.finite 9007199254740992)) (.int 9007199254740992)
      (definite_int _) rfl (definite_int _)
    obtain ⟨htrans, -⟩ := hsame (by decide +kernel) (by decide +kernel)
    exact fun h => htrans.mp h ⟨_, _, _, rfl, rfl, rfl, by decide⟩

/-- Both integers next to each other are equal to one real. -/
theorem same_not_transitive :
    (Number.int 9007199254740993).same (.real (.finite 9007199254740992)) = true ∧
    (Number.real (.finite 9007199254740992)).same (.int 9007199254740992) = true ∧
    (Number.int 9007199254740993).same (.int 9007199254740992) = false := by
  decide +kernel

end Number

end DiceFormula
