import KineticText.Proofs.Number.Nearest
import KineticText.Proofs.Number.Range

/-! A decimal of finite size is rounded to the nearest double. -/
namespace KineticText

namespace Binary64

/-- In multiples of `unit` the integer is the nearest one to `q`, an even one if there are two. -/
structure RoundsTo (q unit : ℚ) (m : Nat) : Prop where
  low : (2 * m - 1) * unit ≤ 2 * q
  high : 2 * q ≤ (2 * m + 1) * unit
  even : 2 * q = (2 * m - 1) * unit ∨ 2 * q = (2 * m + 1) * unit → m % 2 = 0

variable {a b k m num den : Nat} {q unit c : ℚ}

theorem RoundsTo.mul_right (h : RoundsTo q unit m) (hc : 0 < c) :
    RoundsTo (q * c) (unit * c) m := by
  have hlow := mul_le_mul_of_nonneg_right h.low hc.le
  have hhigh := mul_le_mul_of_nonneg_right h.high hc.le
  refine ⟨by linarith, by linarith, fun htie => h.even ?_⟩
  simpa only [← mul_assoc, mul_left_inj' hc.ne'] using htie

theorem roundsTo_roundDiv (a : Nat) (hb : 0 < b) : RoundsTo a b (roundDiv a b) := by
  have hdiv : b * (a / b) + a % b = a := Nat.div_add_mod a b
  have hmod : a % b < b := Nat.mod_lt a hb
  have hround : 2 * (roundDiv a b * b) ≤ 2 * a + b ∧ 2 * a ≤ 2 * (roundDiv a b * b) + b ∧
      (2 * a + b = 2 * (roundDiv a b * b) ∨ 2 * a = 2 * (roundDiv a b * b) + b →
        roundDiv a b % 2 = 0) := by
    simp only [roundDiv]
    split
    · rw [Nat.mul_comm (a / b) b]
      omega
    · rw [Nat.add_mul, Nat.mul_comm (a / b) b]
      omega
  obtain ⟨hlow, hhigh, heven⟩ := hround
  generalize roundDiv a b = m at hlow hhigh heven
  have hlow : 2 * ((m : ℚ) * b) ≤ 2 * a + b := by exact_mod_cast hlow
  have hhigh : 2 * (a : ℚ) ≤ 2 * (m * b) + b := by exact_mod_cast hhigh
  refine ⟨by linarith, by linarith, fun htie => heven ?_⟩
  have htie : 2 * (a : ℚ) + b = 2 * (m * b) ∨ 2 * (a : ℚ) = 2 * (m * b) + b := by
    rcases htie with htie | htie
    · exact .inl (by linarith)
    · exact .inr (by linarith)
  exact_mod_cast htie

/-- In its binade `q` rounds to a significand. It is not below the binade, unless that is the
least one. -/
structure InBinade (q : ℚ) (k m : Nat) : Prop where
  significand : k = 0 ∨ exponentUnit ≤ m
  significand_le : m ≤ 2 * exponentUnit
  first_le : k = 0 ∨ exponentUnit * 2 ^ ((k : Int) - 1074) ≤ q
  rounds : RoundsTo q (2 ^ ((k : Int) - 1074)) m

/-- The next pattern is a unit of the binade larger at least. -/
theorem le_size_succ (h : k = 0 ∨ exponentUnit ≤ m) (hm : m ≤ 2 * exponentUnit) :
    ((m : ℚ) + 1) * 2 ^ ((k : Int) - 1074) ≤ size (k * exponentUnit + m + 1) := by
  rcases Nat.lt_or_eq_of_le hm with hlt | rfl
  · rw [Nat.add_assoc, size_binade (by omega) hlt]
    exact_mod_cast le_rfl
  · have hnext : k * exponentUnit + 2 * exponentUnit + 1 =
        (k + 1) * exponentUnit + (exponentUnit + 1) := by ring
    have hexp : ((k + 1 : Nat) : Int) - 1074 = (k - 1074) + 1 := by omega
    rw [hnext, size_binade (by omega) (by decide), hexp, zpow_add_one₀ (by norm_num)]
    have hpow : (0 : ℚ) < 2 ^ ((k : Int) - 1074) := by positivity
    push_cast
    linarith

/-- The number before is a unit of the binade smaller, unless it is of the binade below or of the
other sign. In that case `q` is not smaller than the pattern's own number. -/
theorem size_le_or_before_eq (hq : 0 ≤ q) (h : InBinade q k m) :
    size (k * exponentUnit + m) ≤ q ∨
      numberAt ((k * exponentUnit + m : Nat) - 1) = (m - 1) * 2 ^ ((k : Int) - 1074) := by
  obtain ⟨hm, hle, hfirst, -⟩ := h
  by_cases hinside : m ≠ 0 ∧ (k = 0 ∨ exponentUnit < m)
  · right
    obtain ⟨f, rfl⟩ := Nat.exists_eq_succ_of_ne_zero hinside.1
    have hplace : ((k * exponentUnit + f.succ : Nat) : Int) - 1 = (k * exponentUnit + f : Nat) := by
      omega
    rw [hplace, Nat.cast_succ, add_sub_cancel_right]
    exact size_binade (by omega) (by omega)
  · left
    rw [size_binade hm hle]
    rcases hfirst with rfl | hfirst
    · obtain rfl : m = 0 := by omega
      rw [Nat.cast_zero, zero_mul]
      exact hq
    · by_cases hzero : m = 0
      · rw [hzero, Nat.cast_zero, zero_mul]
        exact hq
      · obtain rfl : m = exponentUnit := by omega
        exact hfirst

theorem inCell_of_inBinade (hq : 0 ≤ q) (h : InBinade q k m) :
    InCell q (k * exponentUnit + m : Nat) := by
  have hsize : numberAt (k * exponentUnit + m : Nat) = m * 2 ^ ((k : Int) - 1074) :=
    size_binade h.significand h.significand_le
  have hnext : (m + 1) * 2 ^ ((k : Int) - 1074) ≤ numberAt ((k * exponentUnit + m : Nat) + 1) :=
    le_size_succ h.significand h.significand_le
  have hbefore := size_le_or_before_eq hq h
  have hlt : numberAt ((k * exponentUnit + m : Nat) - 1) < numberAt (k * exponentUnit + m : Nat) :=
    numberAt_strictMono (by omega)
  have hparity : m % 2 = 0 → ((k * exponentUnit + m : Nat) : Int) % 2 = 0 := by
    simp only [exponentUnit]
    omega
  obtain ⟨hlow, hhigh, heven⟩ := h.rounds
  have hsize' : size (k * exponentUnit + m) = numberAt (k * exponentUnit + m : Nat) := rfl
  rw [hsize'] at hbefore
  -- A `q` that is not smaller than the number itself is above the middle to the one before.
  refine ⟨?_, ?_, fun htie => hparity (heven ?_)⟩
  · rcases hbefore with hbefore | hbefore <;> linarith
  · linarith
  · rcases htie with htie | htie
    · left
      rcases hbefore with hbefore | hbefore <;> linarith
    · right
      linarith

/-- The scaled quotient rounds as the quotient does in multiples of the scale. -/
theorem roundsTo_significand (num : Nat) (hd : 0 < den) (shift : Int) :
    RoundsTo (num / den) (2 ^ shift)
      (roundDiv (num <<< (-shift).toNat) (den <<< shift.toNat)) := by
  have hb := shiftLeft_pos hd shift.toNat
  have hpos : (0 : ℚ) < (den <<< shift.toNat : Nat) := by exact_mod_cast hb
  have hpow : (0 : ℚ) < 2 ^ shift := by positivity
  have hquotient := shifted num den shift
  have hrounds := (roundsTo_roundDiv (num <<< (-shift).toNat) hb).mul_right (div_pos hpow hpos)
  rwa [mul_div_left_comm, hquotient, mul_div_cancel₀ _ hpow.ne', mul_div_cancel₀ _ hpos.ne']
    at hrounds

theorem inCell_zero (hq : 0 ≤ q) (h : 2 * q < 2 ^ (-1074 : Int)) : InCell q 0 := by
  have hnext : numberAt (0 + 1) = 2 ^ (-1074 : Int) := by
    rw [zero_add]
    exact (size_binade (k := 0) (m := 1) (.inl rfl) (by decide)).trans (by simp)
  have hlow : numberAt (0 - 1) < numberAt 0 := numberAt_strictMono (by decide)
  have hzero : numberAt 0 = 0 := size_zero
  rw [hzero] at hlow
  refine ⟨?_, ?_, fun _ => rfl⟩
  · rw [hzero]
    linarith
  · rw [hzero, hnext]
    linarith

/-- What a quotient rounds to has it in its cell. -/
theorem inCell_nearest (hn : 0 < num) (hd : 0 < den) (h : nearest num den < infinityBits) :
    InCell (num / den) (nearest num den) := by
  obtain ⟨hhigh, hlow⟩ := exponent_spec hn hd
  have hmin : -1022 ≤ exponent num den := le_max_left _ _
  simp only [nearest, if_neg hn.ne'] at h ⊢
  rw [min_eq_right (by omega)]
  generalize exponent num den = e at hhigh hlow hmin
  obtain ⟨k, hk⟩ := Int.eq_ofNat_of_zero_le (by omega : 0 ≤ e + 1022)
  have hshift : (k : Int) - 1074 = e - 52 := by omega
  have hunit : ((exponentUnit : Nat) : ℚ) * 2 ^ (e - 52) = 2 ^ e := (scale_eq 52 e).trans (by simp)
  rw [hk, Int.toNat_natCast]
  apply inCell_of_inBinade (by positivity)
  rcases hlow with hlow | hlow
  · have hleast : k = 0 := by omega
    exact ⟨.inl hleast, significand_le hd hhigh, .inl hleast,
      hshift ▸ roundsTo_significand num hd _⟩
  · exact ⟨.inr (le_significand hd hlow), significand_le hd hhigh, .inr (by rwa [hshift, hunit]),
      hshift ▸ roundsTo_significand num hd _⟩

end Binary64

namespace Decimal

variable {d : Decimal}

/-- The number with its sign. -/
def signed (d : Decimal) : ℚ := Binary64.signed d.negative d.value

theorem value_nonneg (d : Decimal) : 0 ≤ d.value := by
  rw [value]
  positivity

/-- A decimal with a small exponent is below the middle between zero and the least double. -/
theorem value_lt_of_small (h : d.exponent + (d.coefficient.log2 / 3 + 1 : Nat) < -400) :
    2 * d.value < 2 ^ (-1074 : Int) := by
  have hle : d.value ≤ 10 ^ (-401 : Int) :=
    d.value_le.trans (zpow_le_zpow_right₀ (by norm_num) (by omega))
  have hpow : (2 : ℚ) ^ 1075 < 10 ^ 401 :=
    calc (2 : ℚ) ^ 1075 < 2 ^ (3 * 401) := pow_lt_pow_right₀ (by norm_num) (by norm_num)
      _ = 8 ^ 401 := by rw [pow_mul]; norm_num only
      _ ≤ 10 ^ 401 := pow_le_pow_left₀ (by norm_num) (by norm_num) _
  have hlt : (10 : ℚ) ^ (-401 : Int) < 2 ^ (-1075 : Int) := by
    rw [zpow_neg, zpow_neg]
    exact inv_strictAnti₀ (by positivity) hpow
  have htwo : (2 : ℚ) ^ (-1074 : Int) = 2 ^ (-1075 : Int) * 2 := zpow_add_one₀ (by norm_num) (-1075)
  linarith

/-- The magnitude of a decimal of finite size has it in its cell. -/
theorem inCell_magnitude (h : d.Finite) : Binary64.InCell d.value d.magnitude := by
  have hfinite := magnitude_lt_infinityBits_iff.mpr h
  unfold magnitude at hfinite ⊢
  by_cases hc : d.coefficient = 0
  · rw [if_pos hc]
    apply Binary64.inCell_zero d.value_nonneg
    simp [value, hc]
  · rw [if_neg hc] at hfinite ⊢
    by_cases hlarge : 400 < d.exponent
    · exact absurd h (not_finite_of_large hc hlarge)
    · rw [if_neg hlarge] at hfinite ⊢
      by_cases hsmall : d.exponent + (d.coefficient.log2 / 3 + 1 : Nat) < -400
      · rw [if_pos hsmall]
        exact Binary64.inCell_zero d.value_nonneg (value_lt_of_small hsmall)
      · have hpow (n : Nat) : 0 < Nat.pow 10 n := Nat.pow_pos (by decide)
        rw [if_neg hsmall] at hfinite ⊢
        have hcell := Binary64.inCell_nearest
          (Nat.mul_pos (Nat.pos_of_ne_zero hc) (hpow _)) (hpow _) hfinite
        rwa [value_eq_div] at hcell

/-- A decimal of finite size becomes the nearest double. -/
theorem nearest_toFloat (h : d.Finite) : Binary64.Nearest d.signed d.toFloat := by
  have hbits := magnitude_lt_infinityBits_iff.mpr h
  have hcell := inCell_magnitude h
  have hfinite : d.toFloat.isFinite := by
    rw [Binary64.isFinite_iff, toFloat, Binary64.magnitudeBits_ofMagnitude _ hbits]
    exact hbits
  apply Binary64.nearest_of_inCell hfinite
  rw [toFloat, Binary64.place, Binary64.isNegative_ofMagnitude _ hbits,
    Binary64.magnitudeBits_ofMagnitude _ hbits, signed, Binary64.signed]
  split
  · exact hcell.neg
  · exact hcell

end Decimal
end KineticText
