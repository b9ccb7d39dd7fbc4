import KineticText.Proofs.Number.Grammar
import KineticText.Proofs.Number.Rounding

/-! A parameter's value is the double nearest to the number that its text writes. -/
namespace KineticText

namespace Decimal

variable {s : Text} {d d' : Decimal} {x y : Float}

/-- The double is the nearest one to the decimal and has its sign, also if it is zero. -/
structure Rounds (d : Decimal) (x : Float) : Prop where
  nearest : Binary64.Nearest d.signed x
  sign : Binary64.isNegative x = d.negative

theorem rounds_toFloat (h : d.Finite) : d.Rounds d.toFloat :=
  ⟨nearest_toFloat h, Binary64.isNegative_ofMagnitude _ (magnitude_lt_infinityBits_iff.mpr h)⟩

/-- Decimals of the same number and the same sign round to one double. -/
theorem Rounds.eq (hx : d.Rounds x) (hy : d'.Rounds y) (hsign : d.negative = d'.negative)
    (hvalue : d.signed = d'.signed) : x = y := by
  have hxy := hx.nearest.value_eq (hvalue ▸ hy.nearest)
  rw [Binary64.value_eq_numberAt hx.nearest.finite, Binary64.value_eq_numberAt hy.nearest.finite]
    at hxy
  have hplace := Binary64.numberAt_strictMono.injective hxy
  apply Binary64.eq_of_bits
  · rw [hx.sign, hy.sign, hsign]
  · rw [← Binary64.natAbs_place, ← Binary64.natAbs_place, hplace]

end Decimal

variable {s : Text} {d : Decimal} {x : Float}

theorem number?_of_writes (hs : Decimal.Writes s d) (hd : d.Finite) :
    number? s = some d.toFloat := by
  simp only [number?, Decimal.parse?_eq_some_iff.mpr hs, Option.bind_eq_bind, Option.bind_some]
  rw [if_pos (Decimal.magnitude_lt_infinityBits_iff.mpr hd)]

/-- A value is that of a number that the text writes, whatever number that is. -/
theorem rounds_of_number? (hx : number? s = some x) (hs : Decimal.Writes s d) : d.Rounds x := by
  have hsome : (number? s).isSome := by
    rw [hx]
    rfl
  obtain ⟨e, he, hfinite⟩ := number?_isSome_iff.mp hsome
  obtain rfl : e = d := Option.some.inj
    ((Decimal.parse?_eq_some_iff.mpr he).symm.trans (Decimal.parse?_eq_some_iff.mpr hs))
  rw [number?_of_writes hs hfinite] at hx
  obtain rfl := Option.some.inj hx
  exact Decimal.rounds_toFloat hfinite

/-- A text has a value exactly if it writes a number of finite size, and that is the one double
which the number rounds to. Of another text that writes the same number with the same sign the value
is the same, and of one that writes a larger number it is not smaller. -/
theorem number?_exact (s : Text) :
    ((number? s).isSome ↔ ∃ d, Decimal.Writes s d ∧ d.Finite) ∧
    ∀ d x, Decimal.Writes s d → number? s = some x →
      d.Rounds x ∧ (∀ y, d.Rounds y → y = x) ∧
      ∀ t e y, Decimal.Writes t e → number? t = some y →
        (d.negative = e.negative → d.signed = e.signed → x = y) ∧
        (d.signed ≤ e.signed → Binary64.value x ≤ Binary64.value y) := by
  refine ⟨number?_isSome_iff, fun d x hd hx => ?_⟩
  have hrounds := rounds_of_number? hx hd
  refine ⟨hrounds, fun y hy => hy.eq hrounds rfl rfl, fun t e y he hy => ?_⟩
  have hrounds' := rounds_of_number? hy he
  exact ⟨hrounds.eq hrounds', hrounds.nearest.mono hrounds'.nearest⟩

/-- An odd integer in the middle between two doubles, written in two ways, and a number too small
for a double. -/
theorem number?_exact_tie :
    let x := Binary64.ofMagnitude false 0x4340000000000000
    number? "9007199254740993".toList = some x ∧ Binary64.Nearest 9007199254740993 x ∧
    number? "+900719925474099.\u0663\u0660E1".toList = some x ∧
    number? "-1e-400".toList = some (Binary64.ofMagnitude true 0) ∧
    Binary64.value (Binary64.ofMagnitude true 0) ≤ Binary64.value x := by
  intro x
  have hx : number? "9007199254740993".toList = some x := by decide +kernel
  have hz : number? "-1e-400".toList = some (Binary64.ofMagnitude true 0) := by decide +kernel
  have hs : Decimal.Writes "9007199254740993".toList ⟨false, 9007199254740993, 0⟩ :=
    Decimal.parse?_eq_some_iff.mp (by decide +kernel)
  have ht : Decimal.Writes "+900719925474099.\u0663\u0660E1".toList ⟨false, 90071992547409930, -1⟩ :=
    Decimal.parse?_eq_some_iff.mp (by decide +kernel)
  have hu : Decimal.Writes "-1e-400".toList ⟨true, 1, -400⟩ :=
    Decimal.parse?_eq_some_iff.mp (by decide +kernel)
  obtain ⟨hrounds, -, htexts⟩ := (number?_exact "9007199254740993".toList).2 _ _ hs hx
  obtain ⟨-, -, hlarger⟩ := (number?_exact "-1e-400".toList).2 _ _ hu hz
  refine ⟨hx, ?_, ?_, hz, ?_⟩
  · simpa [Decimal.signed, Binary64.signed, Decimal.value] using hrounds.nearest
  · obtain ⟨y, hy⟩ := Option.isSome_iff_exists.mp ((number?_exact _).1.mpr
      ⟨_, ht, Decimal.magnitude_lt_infinityBits_iff.mp (by decide +kernel)⟩)
    obtain rfl : x = y := (htexts _ _ _ ht hy).1 rfl (by
      norm_num [Decimal.signed, Binary64.signed, Decimal.value])
    exact hy
  · apply (hlarger _ _ _ hs hx).2
    calc Decimal.signed ⟨true, 1, -400⟩ ≤ 0 := neg_nonpos.mpr (Decimal.value_nonneg _)
      _ ≤ Decimal.signed ⟨false, 9007199254740993, 0⟩ := Decimal.value_nonneg _

end KineticText
