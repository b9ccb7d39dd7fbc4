import KineticText.Proofs.Number.Exactness
import KineticText.Proofs.Number.Numerals
import KineticText.Proofs.Number.Shortest
import KineticText.Value.Literal

/-! The literal of a finite number reads back as that number. -/
namespace KineticText

namespace Numeral

variable {style : Style} {bits : Nat}

theorem written_shortest_zero (style : Style) : Written (shortest style 0) 0 := by
  have hwritten : Written (balanced style 16 ['0'] 0) (valueFrom ['0'] 0) :=
    written_balanced style 16 (by simp) (fun _ => isDigit_of_mem_replicate (n := 1)) 0
  have hvalue : valueFrom ['0'] 0 = 0 := by
    rw [valueFrom, ← List.replicate_one, Text.digitsValue_replicate_zero, Nat.cast_zero, zero_mul]
  rwa [hvalue] at hwritten

theorem written_shortest (style : Style) (h : 0 < bits) :
    Written (shortest style bits) (Binary64.shortest bits).value := by
  have hne := Text.ofNat_ne_nil (Binary64.shortest bits).coefficient
  have hwritten := written_balanced style 16 (stripped_ne_nil hne)
    (digits_stripped fun _ => Text.isDigit_of_mem_ofNat)
    ((Binary64.shortest bits).exponent + (Text.ofNat (Binary64.shortest bits).coefficient).length - 1)
  rw [valueFrom_stripped, valueFrom, Text.digitsValue_ofNat, sub_add_cancel, add_sub_cancel_right]
    at hwritten
  simpa only [shortest, shortestDigits, if_neg h.ne', Decimal.value] using hwritten

end Numeral

open Binary64

variable {x : Float}

theorem inCell_zero_size : InCell 0 0 := by
  have hown := inCell_numberAt 0
  rwa [show numberAt 0 = 0 from size_zero] at hown

/-- What is written of a finite magnitude is in its cell. -/
theorem exists_written_shortest (style : Numeral.Style) {bits : Nat} (hb : bits < infinityBits) :
    ∃ q, Numeral.Written (Numeral.shortest style bits) q ∧ InCell q bits := by
  rcases Nat.eq_zero_or_pos bits with rfl | hpos
  · exact ⟨0, Numeral.written_shortest_zero style, inCell_zero_size⟩
  · exact ⟨_, Numeral.written_shortest style hpos,
      (Decimal.magnitude_eq_iff hb).mp (shortest_shortest hb hpos).reads⟩

theorem not_isNaN_of_isFinite (hx : x.isFinite) : ¬ x.isNaN := by
  intro hnan
  change x.toModel.unpack.isFinite = true at hx
  change x.toModel.unpack.isNaN = true at hnan
  generalize x.toModel.unpack = u at hx hnan
  cases u with
  | notANumber | infinity => exact nomatch hx
  | zero | finite => exact nomatch hnan

/-- The literal of a finite number is a number of the grammar, and its value is the number itself,
the sign of zero included. -/
theorem number?_literal (hx : x.isFinite) : number? (Binary64.literal x) = some x := by
  have hbits := isFinite_iff.mp hx
  obtain ⟨q, hwritten, hcell⟩ := exists_written_shortest { pointZero := true } hbits
  have hnan := not_isNaN_of_isFinite hx
  have hsign : Decimal.Sign (if isNegative x ∧ ¬ x.isNaN then ['-'] else []) (isNegative x) := by
    by_cases h : isNegative x
    · rw [if_pos ⟨h, hnan⟩, h]
      exact .minus
    · rw [if_neg fun hn => h hn.1, Bool.eq_false_of_not_eq_true h]
      exact .none
  obtain ⟨d, hd, hnegative, rfl⟩ := hwritten _ _ hsign
  have hmagnitude := (Decimal.magnitude_eq_iff hbits).mpr hcell
  have hfinite : d.Finite := Decimal.magnitude_lt_infinityBits_iff.mp (hmagnitude ▸ hbits)
  have hfloat : d.toFloat = x := by
    apply eq_of_bits
    · rw [Decimal.toFloat, isNegative_ofMagnitude _ (hmagnitude ▸ hbits), hnegative]
    · rw [Decimal.toFloat, magnitudeBits_ofMagnitude _ (hmagnitude ▸ hbits), hmagnitude]
  rw [Binary64.literal, if_pos hx, List.append_assoc, number?_of_writes hd hfinite, hfloat]

end KineticText
