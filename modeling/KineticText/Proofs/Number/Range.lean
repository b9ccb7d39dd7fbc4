import KineticText.Number.Decimal
import Mathlib.Algebra.Order.Field.Power
import Mathlib.Data.Rat.Cast.Order
import Mathlib.Tactic.FieldSimp
import Mathlib.Tactic.Linarith
import Mathlib.Tactic.NormNum
import Mathlib.Tactic.Positivity
import Mathlib.Tactic.Ring

/-! The decimals that round to finite doubles: those below the middle between the largest double
and the next power of two. -/
namespace KineticText

namespace Binary64

variable {a b n num den : Nat} {e k : Int}

theorem roundDiv_eq (a b : Nat) : roundDiv a b = a / b ∨ roundDiv a b = a / b + 1 := by
  simp only [roundDiv]
  split
  · exact .inl rfl
  · exact .inr rfl

/-- A quotient rounds below an even number if it is nearer to the number before. -/
theorem roundDiv_lt_iff (hb : 0 < b) (hn : n % 2 = 0) :
    roundDiv a b < n ↔ 2 * a + b < 2 * (n * b) := by
  have hdiv : b * (a / b) + a % b = a := Nat.div_add_mod a b
  have hmod : a % b < b := Nat.mod_lt a hb
  rcases Nat.lt_trichotomy (a / b + 1) n with hq | hq | hq
  · have hle : (a / b + 2) * b ≤ n * b := Nat.mul_le_mul_right b hq
    have hround := roundDiv_eq a b
    rw [Nat.add_mul, Nat.mul_comm (a / b) b] at hle
    constructor <;> intro <;> omega
  · have hodd : (a / b) % 2 = 1 := by omega
    have hmul : n * b = b * (a / b) + b := by rw [← hq, Nat.add_mul, Nat.mul_comm, Nat.one_mul]
    simp only [roundDiv]
    split <;> constructor <;> intro <;> omega
  · have hle : n * b ≤ (a / b) * b := Nat.mul_le_mul_right b (by omega)
    have hround := roundDiv_eq a b
    rw [Nat.mul_comm (a / b) b] at hle
    constructor <;> intro <;> omega

theorem le_roundDiv (hb : 0 < b) (h : n * b ≤ a) : n ≤ roundDiv a b := by
  have hq : n ≤ a / b := (Nat.le_div_iff_mul_le hb).mpr h
  have hround := roundDiv_eq a b
  omega

theorem roundDiv_le (h : a < n * b) : roundDiv a b ≤ n := by
  have hq : a / b < n := Nat.div_lt_of_lt_mul (by rwa [Nat.mul_comm])
  have hround := roundDiv_eq a b
  omega

/-! ### Scaling by powers of two -/

theorem shifted (num den : Nat) (k : Int) :
    ((num <<< (-k).toNat : Nat) : ℚ) / (den <<< k.toNat : Nat) = num / den / 2 ^ k := by
  obtain ⟨m, rfl | rfl⟩ := k.eq_nat_or_neg
  · simp [Nat.shiftLeft_eq, div_div]
  · simp [Nat.shiftLeft_eq, zpow_neg, mul_div_right_comm]

theorem shiftLeft_pos (hd : 0 < den) (m : Nat) : 0 < den <<< m := by
  rw [Nat.shiftLeft_eq]
  positivity

/-- Comparing a scaled quotient with a number. -/
theorem shifted_lt_iff (num : Nat) (hd : 0 < den) (n : Nat) (k : Int) :
    num <<< (-k).toNat < n * den <<< k.toNat ↔ (num / den : ℚ) < n * 2 ^ k := by
  have hpos : (0 : ℚ) < (den <<< k.toNat : Nat) := by exact_mod_cast shiftLeft_pos hd _
  have hpow : (0 : ℚ) < 2 ^ k := by positivity
  rw [← div_lt_iff₀ hpow, ← shifted, div_lt_iff₀ hpos]
  exact_mod_cast Iff.rfl

/-- A quotient of two numbers lies between two powers of a base if each of them does. -/
theorem div_between {base x y : ℚ} (hbase : 0 < base) {i j : Nat} (hx : base ^ i ≤ x)
    (hx' : x < base ^ (i + 1)) (hy : base ^ j ≤ y) (hy' : y < base ^ (j + 1)) :
    base ^ ((i : Int) - j - 1) ≤ x / y ∧ x / y < base ^ ((i : Int) - j + 1) := by
  have hpos : 0 < y := (pow_pos hbase j).trans_le hy
  have hlow : (i : Int) - j - 1 = (i : Int) - (j + 1 : Nat) := by omega
  have hhigh : (i : Int) - j + 1 = ((i + 1 : Nat) : Int) - j := by omega
  rw [hlow, hhigh, zpow_natCast_sub_natCast₀ hbase.ne', zpow_natCast_sub_natCast₀ hbase.ne']
  exact ⟨div_le_div₀ ((pow_pos hbase i).le.trans hx) hx hpos hy'.le,
    div_lt_div₀ hx' hy (by positivity) (by positivity)⟩

/-- The quotient lies in one of two binades. -/
theorem log2_sub_log2_spec (hn : 0 < num) (hd : 0 < den) :
    (2 : ℚ) ^ ((num.log2 : Int) - den.log2 - 1) ≤ num / den ∧
      (num / den : ℚ) < 2 ^ ((num.log2 : Int) - den.log2 + 1) := by
  apply div_between two_pos
  · exact_mod_cast Nat.log2_self_le hn.ne'
  · exact_mod_cast Nat.lt_log2_self
  · exact_mod_cast Nat.log2_self_le hd.ne'
  · exact_mod_cast Nat.lt_log2_self

/-- The exponent is that of the quotient's binade, or the least one. -/
theorem exponent_spec (hn : 0 < num) (hd : 0 < den) :
    (num / den : ℚ) < 2 ^ (exponent num den + 1) ∧
      (exponent num den = -1022 ∨ (2 : ℚ) ^ exponent num den ≤ num / den) := by
  obtain ⟨hlow, hhigh⟩ := log2_sub_log2_spec hn hd
  have htest := shifted_lt_iff num hd 1 ((num.log2 : Int) - den.log2)
  simp only [one_mul, Nat.cast_one] at htest
  simp only [exponent, htest]
  generalize (num.log2 : Int) - den.log2 = k at hlow hhigh
  obtain ⟨e, he, hlt, hle⟩ : ∃ e : Int, (if (num / den : ℚ) < 2 ^ k then k - 1 else k) = e ∧
      (num / den : ℚ) < 2 ^ (e + 1) ∧ (2 : ℚ) ^ e ≤ num / den := by
    by_cases h : (num / den : ℚ) < 2 ^ k
    · exact ⟨k - 1, if_pos h, by simpa using h, hlow⟩
    · exact ⟨k, if_neg h, hhigh, not_lt.mp h⟩
  rw [he]
  rcases le_total e (-1022) with hmin | hmin
  · rw [max_eq_left hmin]
    exact ⟨hlt.trans_le (zpow_le_zpow_right₀ (by norm_num) (by omega)), .inl rfl⟩
  · rw [max_eq_right hmin]
    exact ⟨hlt, .inr hle⟩

/-- The middle between the largest double and the next power of two. -/
theorem overflow_eq : (2 : ℚ) ^ 1024 - 2 ^ 970 = (2 ^ 54 - 1) / 2 * 2 ^ (971 : Int) := by
  have h1024 : (2 : ℚ) ^ 1024 = 2 ^ 54 * 2 ^ 970 := by rw [← pow_add]
  have h971 : (2 : ℚ) ^ (971 : Int) = 2 ^ 970 * 2 := (zpow_natCast 2 971).trans (pow_succ 2 970)
  rw [h1024, h971]
  generalize (2 : ℚ) ^ 970 = x
  ring

theorem le_overflow : (2 : ℚ) ^ (1023 : Int) ≤ 2 ^ 1024 - 2 ^ 970 := by
  have h1024 : (2 : ℚ) ^ 1024 = 2 ^ 1023 * 2 := pow_succ 2 1023
  have h970 : (2 : ℚ) ^ 970 ≤ 2 ^ 1023 := pow_le_pow_right₀ (by norm_num) (by norm_num)
  have h1023 : (2 : ℚ) ^ (1023 : Int) = 2 ^ 1023 := rfl
  rw [h1024, h1023]
  generalize (2 : ℚ) ^ 1023 = x at h970 ⊢
  generalize (2 : ℚ) ^ 970 = y at h970 ⊢
  linarith

theorem overflow_lt : (2 : ℚ) ^ 1024 - 2 ^ 970 < 2 ^ (1024 : Int) := by
  have h970 : (0 : ℚ) < 2 ^ 970 := by positivity
  exact sub_lt_self _ h970

/-- A power of two, scaled as the significand of the binade `e` is. -/
theorem scale_eq (n : Nat) (e : Int) :
    ((2 ^ n : Nat) : ℚ) * 2 ^ (e - 52) = 2 ^ (e + (n - 52 : Int)) := by
  rw [Nat.cast_pow, Nat.cast_ofNat, ← zpow_natCast, ← zpow_add₀ (by norm_num)]
  congr 1
  ring

theorem significand_le (hd : 0 < den) (h : (num / den : ℚ) < 2 ^ (e + 1)) :
    roundDiv (num <<< (-(e - 52)).toNat) (den <<< (e - 52).toNat) ≤ 2 ^ 53 := by
  apply roundDiv_le
  rw [shifted_lt_iff num hd, scale_eq]
  simpa using h

theorem le_significand (hd : 0 < den) (h : (2 : ℚ) ^ e ≤ num / den) :
    2 ^ 52 ≤ roundDiv (num <<< (-(e - 52)).toNat) (den <<< (e - 52).toNat) := by
  apply le_roundDiv (shiftLeft_pos hd _)
  rw [← not_lt, shifted_lt_iff num hd, scale_eq, not_lt]
  simpa using h

/-- In the last binade a significand carries into infinity from the middle on: it is half-way to an
even one there. -/
theorem last_significand_lt_iff (hd : 0 < den) :
    roundDiv (num <<< (-971 : Int).toNat) (den <<< (971 : Int).toNat) < 2 ^ 53 ↔
      (num / den : ℚ) < 2 ^ 1024 - 2 ^ 970 := by
  have hb := shiftLeft_pos hd (971 : Int).toNat
  have hpos : (0 : ℚ) < (den <<< (971 : Int).toNat : Nat) := by exact_mod_cast hb
  rw [roundDiv_lt_iff hb (by norm_num), overflow_eq, ← div_lt_iff₀ (by positivity), ← shifted,
    div_lt_iff₀ hpos]
  generalize num <<< (-971 : Int).toNat = a
  generalize den <<< (971 : Int).toNat = b
  rw [← Nat.cast_lt (α := ℚ)]
  push_cast
  constructor <;> intro <;> linarith

/-- The quotients from the middle above the largest double on round to infinity. -/
theorem nearest_lt_infinityBits_iff (hn : 0 < num) (hd : 0 < den) :
    nearest num den < infinityBits ↔ (num / den : ℚ) < 2 ^ 1024 - 2 ^ 970 := by
  obtain ⟨hhigh, hlow⟩ := exponent_spec hn hd
  have hmin : -1022 ≤ exponent num den := le_max_left _ _
  simp only [nearest, if_neg (Nat.ne_of_gt hn), infinityBits, exponentUnit]
  generalize exponent num den = e at hhigh hlow hmin
  rcases lt_trichotomy e 1023 with he | rfl | he
  · have hq : (num / den : ℚ) < 2 ^ 1024 - 2 ^ 970 :=
      (hhigh.trans_le (zpow_le_zpow_right₀ (by norm_num) (by omega))).trans_le le_overflow
    have hm := significand_le hd hhigh
    simp only [hq, iff_true]
    omega
  · rw [← last_significand_lt_iff hd]
    have hshift : (1023 - 52 : Int) = 971 := rfl
    rw [hshift]
    omega
  · have hle : (2 : ℚ) ^ e ≤ num / den := hlow.resolve_left (by omega)
    have hq : ¬ (num / den : ℚ) < 2 ^ 1024 - 2 ^ 970 :=
      not_lt.mpr (overflow_lt.le.trans ((zpow_le_zpow_right₀ (by norm_num) (by omega)).trans hle))
    have hm := le_significand hd hle
    simp only [hq, iff_false]
    omega

end Binary64

namespace Decimal

variable {d : Decimal} {c : Nat}

/-- The number without its sign. -/
def value (d : Decimal) : ℚ := d.coefficient * 10 ^ d.exponent

/-- The number is not too large for a double: it is below the middle between the largest one and
the next power of two. -/
def Finite (d : Decimal) : Prop := d.value < 2 ^ 1024 - 2 ^ 970

theorem value_eq_div (d : Decimal) : ((d.coefficient * Nat.pow 10 d.exponent.toNat : Nat) : ℚ) /
    (Nat.pow 10 (-d.exponent).toNat : Nat) = d.value := by
  rw [value]
  obtain ⟨m, hm | hm⟩ := d.exponent.eq_nat_or_neg <;> simp [hm, zpow_neg, div_eq_mul_inv]

theorem not_finite_of_large (hc : d.coefficient ≠ 0) (h : 400 < d.exponent) : ¬ d.Finite := by
  have hone : (1 : ℚ) ≤ d.coefficient := by exact_mod_cast Nat.one_le_iff_ne_zero.mpr hc
  have hpow : (2 : ℚ) ^ (1024 : Int) ≤ 10 ^ d.exponent :=
    calc (2 : ℚ) ^ (1024 : Int) ≤ 2 ^ (3 * d.exponent) :=
          zpow_le_zpow_right₀ (by norm_num) (by omega)
      _ = 8 ^ d.exponent := by rw [zpow_mul]; norm_num
      _ ≤ 10 ^ d.exponent := zpow_le_zpow_left₀ (by omega) (by norm_num) (by norm_num)
  have hvalue : (10 : ℚ) ^ d.exponent ≤ d.value := le_mul_of_one_le_left (by positivity) hone
  exact not_lt.mpr (Binary64.overflow_lt.le.trans (hpow.trans hvalue))

theorem lt_ten_pow_log2 (c : Nat) : (c : ℚ) < 10 ^ (c.log2 / 3 + 1) :=
  calc (c : ℚ) < 2 ^ (c.log2 + 1) := by exact_mod_cast Nat.lt_log2_self
    _ ≤ 2 ^ (3 * (c.log2 / 3 + 1)) := pow_le_pow_right₀ (by norm_num) (by omega)
    _ = 8 ^ (c.log2 / 3 + 1) := by rw [pow_mul]; norm_num
    _ ≤ 10 ^ (c.log2 / 3 + 1) := pow_le_pow_left₀ (by norm_num) (by norm_num) _

theorem finite_of_le_one (h : d.value ≤ 1) : d.Finite := by
  have hone : (1 : ℚ) < 2 ^ (1023 : Int) := one_lt_zpow₀ (by norm_num) (by norm_num)
  exact h.trans_lt (hone.trans_le Binary64.le_overflow)

/-- The number is below a power of ten that its length and its exponent tell. -/
theorem value_le (d : Decimal) :
    d.value ≤ 10 ^ (d.exponent + (d.coefficient.log2 / 3 + 1 : Nat)) :=
  calc d.value ≤ 10 ^ (d.coefficient.log2 / 3 + 1) * 10 ^ d.exponent :=
        mul_le_mul_of_nonneg_right (lt_ten_pow_log2 _).le (by positivity)
    _ = 10 ^ (d.exponent + (d.coefficient.log2 / 3 + 1 : Nat)) := by
        rw [← zpow_natCast, ← zpow_add₀ (by norm_num), add_comm]

theorem finite_of_small (h : d.exponent + (d.coefficient.log2 / 3 + 1 : Nat) < -400) :
    d.Finite :=
  finite_of_le_one (d.value_le.trans (zpow_le_one_of_nonpos₀ (by norm_num) (by omega)))

/-- The magnitude of a decimal is that of infinity exactly if it is too large. -/
theorem magnitude_lt_infinityBits_iff : d.magnitude < Binary64.infinityBits ↔ d.Finite := by
  unfold magnitude
  by_cases hc : d.coefficient = 0
  · rw [if_pos hc]
    refine iff_of_true (by decide) (finite_of_le_one ?_)
    simp [value, hc]
  · rw [if_neg hc]
    by_cases hlarge : 400 < d.exponent
    · rw [if_pos hlarge]
      exact iff_of_false (Nat.lt_irrefl _) (not_finite_of_large hc hlarge)
    · rw [if_neg hlarge]
      by_cases hsmall : d.exponent + (d.coefficient.log2 / 3 + 1 : Nat) < -400
      · rw [if_pos hsmall]
        exact iff_of_true (by decide) (finite_of_small hsmall)
      · have hpow (n : Nat) : 0 < Nat.pow 10 n := Nat.pow_pos (by decide)
        rw [if_neg hsmall, Binary64.nearest_lt_infinityBits_iff
          (Nat.mul_pos (Nat.pos_of_ne_zero hc) (hpow _)) (hpow _), value_eq_div, Finite]

end Decimal
end KineticText
