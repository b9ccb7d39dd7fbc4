import KineticText.Number.Numeral
import KineticText.Proofs.Number.Rounding
import KineticText.Proofs.Text.Digits

/-! Decimal grids: the multiple of a power of ten that is nearest to a magnitude, and the power of
ten of its leading digit. -/
namespace KineticText.Binary64

variable {bits num den : Nat} {k : Int}

theorem size_nonneg (bits : Nat) : 0 ≤ size bits := by
  rw [size]
  positivity

theorem size_pos (h : 0 < bits) : 0 < size bits := by
  obtain ⟨n, rfl⟩ := Nat.exists_eq_succ_of_ne_zero h.ne'
  exact (size_nonneg n).trans_lt (size_lt_succ n)

theorem quotient_snd_pos (bits : Nat) (k : Int) : 0 < (quotient bits k).2 :=
  Nat.mul_pos (shiftLeft_pos Nat.one_pos _) (Nat.pow_pos (by decide))

/-- The quotient is the magnitude in units of the grid. -/
theorem quotient_eq (bits : Nat) (k : Int) :
    ((quotient bits k).1 : ℚ) / (quotient bits k).2 = size bits / 10 ^ k := by
  obtain ⟨m, e, hs⟩ : ∃ m e, scaled bits = (m, e) := ⟨_, _, rfl⟩
  have htwo := shifted m 1 (-e)
  have hten := Decimal.value_eq_div ⟨false, 1, -k⟩
  simp only [Decimal.value, neg_neg, Nat.cast_one, one_mul] at htwo hten
  rw [div_one, zpow_neg, div_inv_eq_mul] at htwo
  rw [zpow_neg] at hten
  simp only [quotient, hs, size]
  rw [Nat.cast_mul, Nat.cast_mul, ← div_mul_div_comm, htwo, hten, div_eq_mul_inv]

/-- The grid's multiple is the nearest one to the magnitude, an even one if there are two. -/
theorem roundsTo_roundTo (bits : Nat) (k : Int) :
    RoundsTo (size bits) (10 ^ k) (roundTo bits k) := by
  have hden : (0 : ℚ) < (quotient bits k).2 := by exact_mod_cast quotient_snd_pos bits k
  have hpow : (0 : ℚ) < 10 ^ k := by positivity
  have hrounds := (roundsTo_roundDiv (quotient bits k).1 (quotient_snd_pos bits k)).mul_right
    (div_pos hpow hden)
  rwa [mul_div_left_comm, quotient_eq, mul_div_cancel₀ _ hpow.ne', mul_div_cancel₀ _ hden.ne']
    at hrounds

theorem roundTo_zero (k : Int) : roundTo 0 k = 0 := by
  have hzero : (quotient 0 k).1 = 0 := by simp [quotient, scaled, exponentUnit]
  simp [roundTo, roundDiv, hzero, quotient_snd_pos]

/-! ### The leading digit -/

/-- The lengths of a numerator and a denominator fix the leading power of ten up to one. -/
theorem length_sub_length_spec (hn : 0 < num) (hd : 0 < den) :
    (10 : ℚ) ^ (((Text.ofNat num).length : Int) - (Text.ofNat den).length - 1) ≤ num / den ∧
      (num / den : ℚ) < 10 ^ (((Text.ofNat num).length : Int) - (Text.ofNat den).length + 1) := by
  obtain ⟨i, hi⟩ := Text.exists_length_ofNat num
  obtain ⟨j, hj⟩ := Text.exists_length_ofNat den
  obtain ⟨hnum, hnum'⟩ := Text.ofNat_between hn hi
  obtain ⟨hden, hden'⟩ := Text.ofNat_between hd hj
  have hsub : ((i + 1 : Nat) : Int) - (j + 1 : Nat) = (i : Int) - j := by omega
  rw [hi, hj, hsub]
  apply div_between (by norm_num)
  · exact_mod_cast hnum
  · exact_mod_cast hnum'
  · exact_mod_cast hden
  · exact_mod_cast hden'

/-- The magnitude is between the power of ten of its leading digit and the next one. -/
theorem leading_spec (h : 0 < bits) :
    (10 : ℚ) ^ leading bits ≤ size bits ∧ size bits < 10 ^ (leading bits + 1) := by
  have hden := quotient_snd_pos bits 0
  have hsize : ((quotient bits 0).1 : ℚ) / (quotient bits 0).2 = size bits := by
    rw [quotient_eq, zpow_zero, div_one]
  have hnum : 0 < (quotient bits 0).1 := by
    rw [Nat.pos_iff_ne_zero]
    intro hzero
    rw [hzero, Nat.cast_zero, zero_div] at hsize
    exact (size_pos h).ne hsize
  obtain ⟨hlow, hhigh⟩ := length_sub_length_spec hnum hden
  rw [hsize] at hlow hhigh
  have htest (g : Int) : (quotient bits g).1 < (quotient bits g).2 ↔ size bits < 10 ^ g := by
    have hpos : (0 : ℚ) < (quotient bits g).2 := by exact_mod_cast quotient_snd_pos bits g
    have hpow : (0 : ℚ) < 10 ^ g := by positivity
    rw [← Nat.cast_lt (α := ℚ), ← div_lt_one hpos, quotient_eq, div_lt_one hpow]
  simp only [leading, htest]
  generalize ((Text.ofNat (quotient bits 0).1).length : Int) -
    (Text.ofNat (quotient bits 0).2).length = g at hlow hhigh
  by_cases hg : size bits < 10 ^ g
  · rw [if_pos hg]
    exact ⟨hlow, by simpa using hg⟩
  · rw [if_neg hg]
    exact ⟨not_lt.mp hg, hhigh⟩

/-- On the grid of its `n`th digit a magnitude has `n` digits, or rounds up to the next power of
ten. -/
theorem roundTo_between (h : 0 < bits) {n : Nat} (hn : 0 < n) :
    10 ^ (n - 1) ≤ roundTo bits (leading bits - n + 1) ∧
      roundTo bits (leading bits - n + 1) ≤ 10 ^ n := by
  obtain ⟨hlow, hhigh⟩ := leading_spec h
  have hrounds := roundsTo_roundTo bits (leading bits - n + 1)
  have hunit (m : Nat) : (10 : ℚ) ^ (leading bits - n + 1 + m) =
      10 ^ m * 10 ^ (leading bits - n + 1) := by
    rw [zpow_add₀ (by norm_num), zpow_natCast, mul_comm]
  have hfirst : leading bits = leading bits - n + 1 + (n - 1 : Nat) := by omega
  have hnext : leading bits + 1 = leading bits - n + 1 + n := by omega
  rw [hfirst, hunit] at hlow
  rw [hnext, hunit] at hhigh
  have hpow : (0 : ℚ) < 10 ^ (leading bits - n + 1) := by positivity
  generalize roundTo bits (leading bits - n + 1) = m at hrounds
  generalize (10 : ℚ) ^ (leading bits - n + 1) = unit at hrounds hlow hhigh hpow
  have hge : 2 * (10 : ℚ) ^ (n - 1) ≤ 2 * m + 1 := by
    rw [← mul_le_mul_iff_left₀ hpow]
    linarith [hrounds.high]
  have hle : 2 * (m : ℚ) - 1 < 2 * 10 ^ n := by
    rw [← mul_lt_mul_iff_left₀ hpow]
    linarith [hrounds.low]
  have hge : 2 * 10 ^ (n - 1) ≤ 2 * m + 1 := by exact_mod_cast hge
  have hle : 2 * m < 2 * 10 ^ n + 1 := by
    have : (2 : ℚ) * m < 2 * 10 ^ n + 1 := by linarith
    exact_mod_cast this
  omega

end KineticText.Binary64
