import KineticText.Proofs.Number.Doubles

/-! Rounding to the nearest double. What a number rounds to is fixed by it, and a larger number
does not round to a smaller double. -/
namespace KineticText.Binary64

/-- The double is the nearest one to `q`, and where another one is as near, its last bit is zero. -/
structure Nearest (q : ℚ) (x : Float) : Prop where
  finite : x.isFinite
  closest : ∀ y : Float, y.isFinite → |value x - q| ≤ |value y - q|
  even : ∀ y : Float, y.isFinite → value y ≠ value x → |value x - q| = |value y - q| →
    x.toBits.toNat % 2 = 0

/-! ### The doubles in their order -/

/-- The place of a double among all in their order. Both zeros have place 0. -/
def place (x : Float) : Int := if isNegative x then -magnitudeBits x else magnitudeBits x

/-- The number of the double at a place. -/
def numberAt : Int → ℚ
  | .ofNat n => size n
  | .negSucc n => -size (n + 1)

/-- The double at a place. -/
def atPlace (i : Int) : Float := ofMagnitude (i < 0) i.natAbs

/-- The number is between the middles from a place to its neighbours, and on a middle only if the
place is even. -/
structure InCell (q : ℚ) (i : Int) : Prop where
  low : numberAt (i - 1) + numberAt i ≤ 2 * q
  high : 2 * q ≤ numberAt i + numberAt (i + 1)
  even : 2 * q = numberAt (i - 1) + numberAt i ∨ 2 * q = numberAt i + numberAt (i + 1) → i % 2 = 0

variable {q q' : ℚ} {x y : Float} {i : Int}

theorem numberAt_neg (i : Int) : numberAt (-i) = -numberAt i := by
  match i with
  | .ofNat 0 => simp [numberAt, size_zero]
  | .ofNat (n + 1) => rfl
  | .negSucc n => exact (neg_neg (size (n + 1))).symm

theorem numberAt_strictMono : StrictMono numberAt := by
  apply strictMono_int_of_lt_succ
  intro i
  match i with
  | .ofNat n => exact size_lt_succ n
  | .negSucc 0 =>
    change -size 1 < size 0
    have hlt := size_lt_succ 0
    rw [size_zero] at hlt ⊢
    exact neg_lt_zero.mpr hlt
  | .negSucc (n + 1) => exact neg_lt_neg (size_lt_succ (n + 1))

theorem value_eq_numberAt (hx : x.isFinite) : value x = numberAt (place x) := by
  rw [value_eq_size hx, place]
  by_cases h : isNegative x
  · rw [if_pos h, numberAt_neg, h]
    rfl
  · rw [if_neg h, Bool.eq_false_of_not_eq_true h]
    rfl

theorem natAbs_place (x : Float) : (place x).natAbs = magnitudeBits x := by
  rw [place]
  split <;> omega

theorem place_atPlace (h : i.natAbs < infinityBits) : place (atPlace i) = i := by
  rw [place, atPlace, isNegative_ofMagnitude _ h, magnitudeBits_ofMagnitude _ h]
  by_cases hneg : i < 0
  · rw [if_pos (decide_eq_true hneg)]
    omega
  · rw [if_neg (by simpa using hneg)]
    omega

theorem isFinite_atPlace (h : i.natAbs < infinityBits) : (atPlace i).isFinite := by
  rw [isFinite_iff, ← natAbs_place, place_atPlace h]
  exact h

/-- The last bit is that of the place. -/
theorem last_bit_eq (x : Float) : (x.toBits.toNat : Int) % 2 = place x % 2 := by
  have hsign : signBit % 2 = 0 := by decide
  rw [toNat_toBits, place]
  split <;> omega

/-! ### What is nearest -/

/-- A number is nearer to the larger of two numbers from the middle on. -/
theorem nearer_larger_iff {a b : ℚ} (h : a < b) : |b - q| ≤ |a - q| ↔ a + b ≤ 2 * q := by
  rw [← sq_le_sq]
  constructor <;> intro hq <;> nlinarith

theorem nearer_smaller_iff {a b : ℚ} (h : a < b) : |a - q| ≤ |b - q| ↔ 2 * q ≤ a + b := by
  rw [← sq_le_sq]
  constructor <;> intro hq <;> nlinarith

/-- Between two doubles whose last bits are zero there is another one. -/
theorem exists_between (hx : x.isFinite) (hy : y.isFinite) (hxe : x.toBits.toNat % 2 = 0)
    (hye : y.toBits.toNat % 2 = 0) (h : value x < value y) :
    ∃ z : Float, z.isFinite ∧ value x < value z ∧ value z < value y := by
  have hxp := last_bit_eq x
  have hyp := last_bit_eq y
  have hxn := isFinite_iff.mp hx
  have hyn := isFinite_iff.mp hy
  rw [← natAbs_place] at hxn hyn
  rw [value_eq_numberAt hx, value_eq_numberAt hy] at h ⊢
  have hlt := numberAt_strictMono.lt_iff_lt.mp h
  have hz : (place x + 1).natAbs < infinityBits := by omega
  refine ⟨atPlace (place x + 1), isFinite_atPlace hz, ?_⟩
  rw [value_eq_numberAt (isFinite_atPlace hz), place_atPlace hz]
  exact ⟨numberAt_strictMono (by omega), numberAt_strictMono (by omega)⟩

/-- Two doubles that are both nearest are one number: else both would be even, and a double between
them would be nearer. -/
theorem Nearest.not_value_lt (hx : Nearest q x) (hy : Nearest q y) : ¬ value x < value y := by
  intro h
  have hle := hx.closest y hy.finite
  have hle' := hy.closest x hx.finite
  have htie := le_antisymm hle hle'
  have hxe := hx.even y hy.finite h.ne' htie
  have hye := hy.even x hx.finite h.ne htie.symm
  obtain ⟨z, hz, hxz, hzy⟩ := exists_between hx.finite hy.finite hxe hye h
  have hxq := (nearer_smaller_iff hxz).mp (hx.closest z hz)
  have hyq := (nearer_larger_iff hzy).mp (hy.closest z hz)
  linarith

theorem Nearest.value_eq (hx : Nearest q x) (hy : Nearest q y) : value x = value y :=
  le_antisymm (not_lt.mp (hy.not_value_lt hx)) (not_lt.mp (hx.not_value_lt hy))

/-- A larger number does not round to a smaller double. -/
theorem Nearest.mono (hx : Nearest q x) (hy : Nearest q' y) (h : q ≤ q') : value x ≤ value y := by
  by_contra hlt
  rw [not_le] at hlt
  have hq := (nearer_larger_iff hlt).mp (hx.closest y hy.finite)
  have hq' := (nearer_smaller_iff hlt).mp (hy.closest x hx.finite)
  obtain rfl : q = q' := by linarith
  exact hy.not_value_lt hx hlt

theorem InCell.neg (h : InCell q i) : InCell (-q) (-i) := by
  have hbefore : -i - 1 = -(i + 1) := by omega
  have hbehind : -i + 1 = -(i - 1) := by omega
  have hlow := h.low
  have hhigh := h.high
  refine ⟨?_, ?_, fun htie => ?_⟩
  · rw [hbefore, numberAt_neg, numberAt_neg]
    linarith
  · rw [hbehind, numberAt_neg, numberAt_neg]
    linarith
  · rw [hbefore, hbehind, numberAt_neg, numberAt_neg, numberAt_neg] at htie
    rw [Int.neg_emod_two]
    apply h.even
    rcases htie with htie | htie
    · right
      linarith
    · left
      linarith

/-- A number in the cell of a double is nearest to it. -/
theorem nearest_of_inCell (hx : x.isFinite) (h : InCell q (place x)) : Nearest q x := by
  obtain ⟨hlow, hhigh, heven⟩ := h
  have hlast : place x % 2 = 0 → x.toBits.toNat % 2 = 0 := by
    have hbit := last_bit_eq x
    omega
  rw [← value_eq_numberAt hx] at hlow hhigh heven
  have hcases (y : Float) (hy : y.isFinite) : value y = value x ∨
      value y < value x ∧ value y ≤ numberAt (place x - 1) ∨
      value x < value y ∧ numberAt (place x + 1) ≤ value y := by
    rw [value_eq_numberAt hx, value_eq_numberAt hy]
    rcases lt_trichotomy (place y) (place x) with h | h | h
    · exact .inr (.inl ⟨numberAt_strictMono h, numberAt_strictMono.monotone (by omega)⟩)
    · exact .inl (by rw [h])
    · exact .inr (.inr ⟨numberAt_strictMono h, numberAt_strictMono.monotone (by omega)⟩)
  refine ⟨hx, fun y hy => ?_, fun y hy hne htie => ?_⟩
  · rcases hcases y hy with h | ⟨h, hle⟩ | ⟨h, hle⟩
    · rw [h]
    · exact (nearer_larger_iff h).mpr (by linarith)
    · exact (nearer_smaller_iff h).mpr (by linarith)
  · apply hlast
    apply heven
    rcases hcases y hy with h | ⟨h, hle⟩ | ⟨h, hle⟩
    · exact absurd h hne
    · have hmid := (nearer_smaller_iff h).mp htie.ge
      left
      linarith
    · have hmid := (nearer_larger_iff h).mp htie.ge
      right
      linarith

end KineticText.Binary64
