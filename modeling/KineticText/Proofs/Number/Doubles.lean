import KineticText.Number.Binary64
import Mathlib

/-! Doubles and the rational numbers that they stand for. -/
namespace KineticText.Binary64

open Float.Model (Format)
open Float.Model.UnpackedFloat

/-- The number that a double stands for; zero if it is not finite. -/
def value (x : Float) : ℚ :=
  match x.toModel.unpack with
  | .finite s m e _ => s.apply m * 2 ^ e
  | _ => 0

/-- The number of a magnitude's bit pattern. -/
def size (bits : Nat) : ℚ := (scaled bits).1 * 2 ^ (scaled bits).2

/-- A magnitude with a sign. -/
def signed (negative : Bool) (q : ℚ) : ℚ := if negative then -q else q

variable {s : Sign} {n m e k : Nat} {u : Float.Model.UnpackedFloat}

/-! ### Sizes -/

theorem scaled_normal {e : Nat} (he : e ≠ 0) (hm : m < exponentUnit) :
    scaled (e * exponentUnit + m) = (exponentUnit + m, (e : Int) - 1075) := by
  have hle : exponentUnit ≤ e * exponentUnit := Nat.le_mul_of_pos_left _ (Nat.pos_of_ne_zero he)
  have hdiv : (e * exponentUnit + m) / exponentUnit = e := by
    rw [Nat.mul_comm, Nat.mul_add_div (by decide), Nat.div_eq_of_lt hm, Nat.add_zero]
  rw [scaled, if_neg (by omega), Nat.mul_add_mod', Nat.mod_eq_of_lt hm, ← Int.natCast_ediv, hdiv]

/-- The pattern of a binade and a significand. The significand may be that of the next binade's
first number, and in the least binade it may be any smaller one. -/
theorem size_binade (h : k = 0 ∨ exponentUnit ≤ m) (hm : m ≤ 2 * exponentUnit) :
    size (k * exponentUnit + m) = m * 2 ^ ((k : Int) - 1074) := by
  rcases Nat.lt_or_ge m exponentUnit with hsmall | hle
  · obtain rfl : k = 0 := by omega
    rw [size, scaled, Nat.zero_mul, Nat.zero_add, if_pos hsmall]
    rfl
  · rcases Nat.eq_or_lt_of_le hm with rfl | hlt
    · have hnext : k * exponentUnit + 2 * exponentUnit = (k + 2) * exponentUnit + 0 := by ring
      have hexp : ((k + 2 : Nat) : Int) - 1075 = (k - 1074) + 1 := by omega
      rw [hnext, size, scaled_normal (by omega) (by decide), hexp, zpow_add_one₀ (by norm_num)]
      push_cast
      ring
    · obtain ⟨f, rfl⟩ := Nat.exists_eq_add_of_le hle
      have hnext : k * exponentUnit + (exponentUnit + f) = (k + 1) * exponentUnit + f := by ring
      have hexp : ((k + 1 : Nat) : Int) - 1075 = k - 1074 := by omega
      rw [hnext, size, scaled_normal (by omega) (by omega), hexp]

theorem size_zero : size 0 = 0 := by
  rw [size, scaled, if_pos (by decide), Nat.cast_zero, zero_mul]

/-- Every pattern has a binade and a significand. -/
theorem exists_binade (n : Nat) :
    ∃ k m, n = k * exponentUnit + m ∧ m < 2 * exponentUnit ∧ (k = 0 ∨ exponentUnit ≤ m) := by
  by_cases h : n < exponentUnit
  · exact ⟨0, n, by omega, by omega, .inl rfl⟩
  · refine ⟨n / exponentUnit - 1, exponentUnit + n % exponentUnit, ?_, ?_, .inr (by omega)⟩
    · simp only [exponentUnit] at h ⊢
      omega
    · simp only [exponentUnit]
      omega

theorem size_lt_succ (n : Nat) : size n < size (n + 1) := by
  obtain ⟨k, m, rfl, hm, hk⟩ := exists_binade n
  rw [size_binade hk hm.le, Nat.add_assoc, size_binade (by omega) hm]
  have hpow : (0 : ℚ) < 2 ^ ((k : Int) - 1074) := by positivity
  push_cast
  linarith

/-! ### Bit patterns -/

theorem toNat_unpackMantissa (b : BitVec Format.binary64.numBits) :
    (unpackMantissa b).toNat = b.toNat % exponentUnit := by
  simp [unpackMantissa, BitVec.extractLsb, exponentUnit]

theorem toNat_unpackExponent (b : BitVec Format.binary64.numBits) :
    (unpackExponent b).toNat = b.toNat / exponentUnit % 2048 := by
  simp [unpackExponent, BitVec.extractLsb, exponentUnit, Nat.shiftRight_eq_div_pow]

theorem toNat_unpackSign (b : BitVec Format.binary64.numBits) :
    (unpackSign b).toNat = b.toNat / signBit := by
  have hlt : b.toNat < 2 ^ 64 := b.isLt
  simp only [unpackSign, BitVec.extractLsb, BitVec.toNat_cast, BitVec.extractLsb'_toNat,
    Nat.shiftRight_eq_div_pow, signBit]
  exact Nat.mod_eq_of_lt (by omega)

theorem toNat_append {v w : Nat} (x : BitVec v) (y : BitVec w) :
    (x ++ y).toNat = x.toNat * 2 ^ w + y.toNat := by
  rw [BitVec.toNat_append, ← Nat.shiftLeft_add_eq_or_of_lt y.isLt, Nat.shiftLeft_eq]

/-- What a pattern of sign `s` and magnitude `n` unpacks to. -/
inductive Unpacks (s : Sign) : Nat → Float.Model.UnpackedFloat → Prop
  | infinite {n : Nat} {u : Float.Model.UnpackedFloat} :
      infinityBits ≤ n → ¬ u.isFinite → Unpacks s n u
  | zero : Unpacks s 0 (.zero s)
  | subnormal {m : Nat} {h : 0 < m} : m < exponentUnit → Unpacks s m (.finite s m (-1074) h)
  | normal {e m : Nat} {h : 0 < exponentUnit + m} : e ≠ 0 → e < 2047 → m < exponentUnit →
      Unpacks s (e * exponentUnit + m) (.finite s (exponentUnit + m) (e - 1075) h)

theorem unpacks_unpack (b : BitVec Format.binary64.numBits) :
    Unpacks (.ofBitVec (unpackSign b)) (b.toNat % signBit) (unpack .binary64 b) := by
  have hsplit : b.toNat % signBit =
      (unpackExponent b).toNat * exponentUnit + (unpackMantissa b).toNat := by
    rw [toNat_unpackMantissa, toNat_unpackExponent]
    simp only [signBit, exponentUnit]
    omega
  have hm : (unpackMantissa b).toNat < exponentUnit := (unpackMantissa b).isLt
  have he : (unpackExponent b).toNat < 2048 := (unpackExponent b).isLt
  rw [hsplit, unpack]
  split
  · rename_i h
    have hmax : (unpackExponent b).toNat = 2047 := by rw [h]; rfl
    refine .infinite ?_ ?_
    · rw [hmax]
      exact Nat.le_add_right _ _
    · split <;> exact Bool.false_ne_true
  · rename_i hmax
    have hlt : (unpackExponent b).toNat ≠ 2047 := fun h => hmax (BitVec.eq_of_toNat_eq h)
    split
    · rename_i hmin
      rw [hmin, BitVec.toNat_zero, Nat.zero_mul, Nat.zero_add]
      split
      · rename_i hzero
        rw [hzero]
        exact .zero
      · exact .subnormal hm
    · rename_i hmin
      have hpos : (unpackExponent b).toNat ≠ 0 := fun h => hmin (BitVec.eq_of_toNat_eq h)
      have hnormal := Unpacks.normal (s := .ofBitVec (unpackSign b)) (h := by omega) hpos
        (by omega) hm
      simp only [toNat_append]
      exact hnormal

/-- A pattern of finite magnitude is one that a double has. -/
theorem valid_of_lt {b : BitVec Format.binary64.numBits} (h : b.toNat % signBit < infinityBits) :
    Format.binary64.Valid b := by
  refine ⟨fun hmax => ?_⟩
  have hexp := toNat_unpackExponent b
  have htop : (unpackExponent b).toNat = 2047 := by
    rw [hmax]
    rfl
  simp only [signBit, infinityBits, exponentUnit] at h hexp
  omega

/-! ### Doubles -/

variable {x y : Float} {negative : Bool}

theorem ofBitVec_unpackSign (b : BitVec Format.binary64.numBits) :
    Sign.ofBitVec (unpackSign b) = if signBit ≤ b.toNat then .negative else .positive := by
  have hlt : b.toNat < 2 ^ 64 := b.isLt
  have hsign := toNat_unpackSign b
  rw [Sign.ofBitVec]
  by_cases h : signBit ≤ b.toNat
  · rw [if_pos h, if_neg]
    intro hzero
    simp only [hzero, BitVec.toNat_zero, signBit] at hsign h
    omega
  · rw [if_neg h, if_pos]
    apply BitVec.eq_of_toNat_eq
    simp only [hsign, BitVec.toNat_zero, signBit] at h ⊢
    omega

theorem unpacks (x : Float) :
    Unpacks (if isNegative x then .negative else .positive) (magnitudeBits x) x.toModel.unpack := by
  have h := unpacks_unpack x.toBits.toBitVec
  rw [ofBitVec_unpackSign] at h
  simp only [isNegative, decide_eq_true_eq]
  exact h

theorem isFinite_iff : x.isFinite ↔ magnitudeBits x < infinityBits := by
  have hx : x.isFinite = x.toModel.unpack.isFinite := rfl
  rw [hx]
  have h := unpacks x
  generalize magnitudeBits x = n at h
  generalize x.toModel.unpack = u at h
  cases h with
  | infinite hle hu => exact iff_of_false hu (Nat.not_lt.mpr hle)
  | zero => exact iff_of_true rfl (by decide)
  | subnormal hm => exact iff_of_true rfl (hm.trans (by decide))
  | normal _ he hm =>
    refine iff_of_true rfl ?_
    simp only [exponentUnit, infinityBits] at hm ⊢
    omega

theorem apply_sign (negative : Bool) (m : Nat) :
    (((if negative then .negative else .positive : Sign).apply m : Int) : ℚ) = signed negative m := by
  cases negative <;> simp [Sign.apply, signed]

theorem signed_mul (negative : Bool) (q r : ℚ) : signed negative q * r = signed negative (q * r) := by
  cases negative <;> simp [signed]

theorem value_eq_size (hx : x.isFinite) :
    value x = signed (isNegative x) (size (magnitudeBits x)) := by
  have hn := isFinite_iff.mp hx
  have h := unpacks x
  rw [value]
  generalize magnitudeBits x = n at h hn
  generalize x.toModel.unpack = u at h
  cases h with
  | infinite hle => exact absurd hn (Nat.not_lt.mpr hle)
  | zero =>
    rw [size_zero]
    cases isNegative x <;> simp [signed]
  | subnormal hm =>
    have hsize := size_binade (.inl rfl) (by omega : n ≤ 2 * exponentUnit)
    rw [Nat.zero_mul, Nat.zero_add] at hsize
    simp only [apply_sign, signed_mul, hsize]
    rfl
  | @normal e m _ he _ hm =>
    obtain ⟨k, rfl⟩ := Nat.exists_eq_succ_of_ne_zero he
    have hsize := size_binade (k := k) (.inr (Nat.le_add_right exponentUnit m)) (by omega)
    have hnext : k.succ * exponentUnit + m = k * exponentUnit + (exponentUnit + m) := by
      rw [Nat.succ_mul, Nat.add_assoc]
    have hexp : ((k.succ : Nat) : Int) - 1075 = k - 1074 := by omega
    simp only [apply_sign, signed_mul, hnext, hsize, hexp]

/-! ### Patterns of doubles -/

theorem toNat_toBits (x : Float) :
    x.toBits.toNat = if isNegative x then signBit + magnitudeBits x else magnitudeBits x := by
  have hlt := x.toBits.toNat_lt
  simp only [isNegative, magnitudeBits, decide_eq_true_eq]
  by_cases h : signBit ≤ x.toBits.toNat
  · rw [if_pos h]
    simp only [signBit] at h ⊢
    omega
  · rw [if_neg h, Nat.mod_eq_of_lt (Nat.not_le.mp h)]

/-- A double has the bits that it is made from. -/
theorem toBits_ofMagnitude (negative : Bool) (hn : n < infinityBits) :
    (ofMagnitude negative n).toBits.toNat = if negative then signBit + n else n := by
  have hmax : infinityBits < signBit := by decide
  have hmax' : signBit + infinityBits < UInt64.size := by decide
  rw [ofMagnitude]
  generalize hb : (if negative then signBit + n else n) = b
  have hlt : b < UInt64.size := by
    rw [← hb]
    split <;> omega
  have hbits : (UInt64.ofNat b).toBitVec.toNat = b := UInt64.toNat_ofNat_of_lt hlt
  have hmod : b % signBit = n := by
    rw [← hb]
    split
    · rw [Nat.add_mod_left, Nat.mod_eq_of_lt (by omega)]
    · rw [Nat.mod_eq_of_lt (by omega)]
  have hvalid : Format.binary64.Valid (UInt64.ofNat b).toBitVec := by
    apply valid_of_lt
    rw [hbits, hmod]
    exact hn
  change (pack .binary64 (unpack .binary64 (UInt64.ofNat b).toBitVec)).toNat = b
  rw [pack_unpack_of_valid hvalid, hbits]

theorem isNegative_ofMagnitude (negative : Bool) (hn : n < infinityBits) :
    isNegative (ofMagnitude negative n) = negative := by
  rw [isNegative, toBits_ofMagnitude negative hn]
  simp only [infinityBits] at hn
  cases negative <;> simp [signBit]
  omega

theorem magnitudeBits_ofMagnitude (negative : Bool) (hn : n < infinityBits) :
    magnitudeBits (ofMagnitude negative n) = n := by
  rw [magnitudeBits, toBits_ofMagnitude negative hn]
  simp only [infinityBits] at hn
  cases negative <;> simp [signBit] <;> omega

theorem eq_of_bits (hsign : isNegative x = isNegative y) (hbits : magnitudeBits x = magnitudeBits y) :
    x = y := by
  rw [← Float.toBits_inj, ← UInt64.toNat_inj, toNat_toBits, toNat_toBits, hsign, hbits]

end KineticText.Binary64
