import KineticText.Proofs.Text.Quoting
import KineticText.Value.Literal

/-! A literal brings in no characters of its own but marks of ASCII: all others are of texts in the
value and stand for themselves. -/
namespace KineticText

variable {plain : Char → Bool} {c : Char} {s t ds : Text}

namespace Text

/-- The characters of the text stand for themselves or are marks of ASCII. -/
def Stands (plain : Char → Bool) (s : Text) : Prop := ∀ c ∈ s, plain c ∨ isMark c

@[simp]
theorem stands_nil : Stands plain [] := List.forall_mem_nil _

@[simp]
theorem stands_append : Stands plain (s ++ t) ↔ Stands plain s ∧ Stands plain t :=
  List.forall_mem_append

theorem stands_cons (hc : isMark c) (h : Stands plain s) : Stands plain (c :: s) :=
  List.forall_mem_cons.mpr ⟨.inr hc, h⟩

theorem stands_singleton (hc : isMark c) : Stands plain [c] := stands_cons hc stands_nil

theorem Stands.take (h : Stands plain s) (n : Nat) : Stands plain (s.take n) :=
  fun c hc => h c (List.mem_of_mem_take hc)

theorem Stands.drop (h : Stands plain s) (n : Nat) : Stands plain (s.drop n) :=
  fun c hc => h c (List.mem_of_mem_drop hc)

theorem stands_of_all (h : s.all isMark) : Stands plain s :=
  fun c hc => .inr (List.all_eq_true.mp h c hc)

theorem stands_zeros (n : Nat) : Stands plain (List.replicate n '0') :=
  stands_of_all (by simp [isMark])

theorem stands_ofNat (n : Nat) : Stands plain (ofNat n) := by
  intro c hc
  have hdigit := Nat.isDigit_of_mem_toDigits (by decide) le_rfl hc
  have hrange : 0x30 ≤ c.toNat ∧ c.toNat ≤ 0x39 := by
    simpa [Char.isDigit, UInt32.le_iff_toNat_le] using hdigit
  right
  simp only [isMark, decide_eq_true_eq]
  omega

theorem stands_ofInt (n : Int) : Stands plain (ofInt n) := by
  cases n with
  | ofNat n => exact stands_ofNat n
  | negSucc n => exact stands_cons rfl (stands_ofNat _)

theorem stands_quotedBy (plain : Char → Bool) (s : Text) : Stands plain (s.quotedBy plain) :=
  fun _ => plain_or_isMark_of_mem_quotedBy

end Text

open Text

/-! ### Numbers -/

namespace Numeral

theorem stands_exponent (e : Int) : Stands plain (exponent e) := by
  have hsign : isMark (if e < 0 then '-' else '+') := by split <;> rfl
  exact stands_cons rfl (stands_cons hsign (stands_append.mpr ⟨stands_zeros _, stands_ofNat _⟩))

theorem stands_fraction (style : Style) (h : Stands plain ds) : Stands plain (fraction style ds) := by
  rw [fraction]
  split
  · exact stands_nil
  · exact stands_cons rfl h

theorem stands_withExponent (style : Style) (h : Stands plain ds) (e : Int) :
    Stands plain ((withExponent style ds e).whole ++ (withExponent style ds e).rest) := by
  rw [withExponent, stands_append, stands_append]
  exact ⟨h.take 1, stands_fraction style (h.drop 1), stands_exponent e⟩

theorem stands_positional (style : Style) (h : Stands plain ds) (e : Int) :
    Stands plain ((positional style ds e).whole ++ (positional style ds e).rest) := by
  have htail : Stands plain
      (if e < 0 then List.replicate (-e - 1).toNat '0' ++ ds else ds.drop (e.toNat + 1)) := by
    split
    · exact stands_append.mpr ⟨stands_zeros _, h⟩
    · exact h.drop _
  simp only [positional, stands_append]
  constructor
  · split
    · exact stands_singleton rfl
    · exact stands_append.mpr ⟨h.take _, stands_zeros _⟩
  · generalize (if e < 0 then List.replicate (-e - 1).toNat '0' ++ ds
      else ds.drop (e.toNat + 1)) = tail at htail ⊢
    apply stands_fraction
    split
    · exact stands_singleton rfl
    · exact htail

theorem stands_stripped (h : Stands plain ds) : Stands plain (stripped ds) := by
  rw [stripped, stands_append]
  refine ⟨h.take 1, fun c hc => ?_⟩
  have hmem := (List.dropWhile_sublist _).subset (List.mem_reverse.mp hc)
  exact h.drop 1 c (List.mem_reverse.mp hmem)

theorem stands_shortest (style : Style) (bits : Nat) :
    Stands plain ((shortest style bits).whole ++ (shortest style bits).rest) := by
  have hdigits : Stands plain (shortestDigits bits).1 := by
    rw [shortestDigits]
    split
    · exact stands_singleton rfl
    · exact stands_stripped (stands_ofNat _)
  simp only [shortest, balanced]
  split
  · exact stands_positional style hdigits _
  · exact stands_withExponent style hdigits _

end Numeral

theorem Binary64.stands_literal (x : Float) : Stands plain (Binary64.literal x) := by
  rw [Binary64.literal, List.append_assoc, stands_append]
  constructor
  · split
    · exact stands_singleton rfl
    · exact stands_nil
  · split
    · exact Numeral.stands_shortest _ _
    · rw [Numeral.nonFinite, List.nil_append]
      split <;> exact stands_of_all rfl

/-! ### Values -/

namespace Value

mutual

theorem stands_literalBy (plain : Char → Bool) : ∀ v : Value, Stands plain (v.literalBy plain)
  | null => stands_of_all rfl
  | bool b => by cases b <;> exact stands_of_all rfl
  | integer n => stands_ofInt n
  | number x => Binary64.stands_literal x
  | text s => stands_quotedBy plain s
  | list vs => stands_append.mpr ⟨stands_cons rfl (stands_literals plain vs), stands_singleton rfl⟩
  | record fields =>
    stands_append.mpr ⟨stands_cons rfl (stands_fieldLiterals plain fields), stands_singleton rfl⟩

theorem stands_literals (plain : Char → Bool) : ∀ vs : List Value, Stands plain (literals plain vs)
  | [] => stands_nil
  | [v] => stands_literalBy plain v
  | v :: w :: vs =>
    stands_append.mpr ⟨stands_append.mpr ⟨stands_literalBy plain v, stands_of_all rfl⟩,
      stands_literals plain (w :: vs)⟩

theorem stands_fieldLiterals (plain : Char → Bool) :
    ∀ fields : List (Text × Value), Stands plain (fieldLiterals plain fields)
  | [] => stands_nil
  | [(name, v)] =>
    stands_append.mpr ⟨stands_append.mpr ⟨stands_quotedBy plain name, stands_of_all rfl⟩,
      stands_literalBy plain v⟩
  | (name, v) :: x :: fields =>
    stands_append.mpr ⟨stands_append.mpr ⟨stands_append.mpr
      ⟨stands_append.mpr ⟨stands_quotedBy plain name, stands_of_all rfl⟩,
        stands_literalBy plain v⟩, stands_of_all rfl⟩, stands_fieldLiterals plain (x :: fields)⟩

end

/-- A literal is printable, whatever its value holds. -/
theorem isPrintable_of_mem_literal {v : Value} (h : c ∈ v.literal) : isPrintable c := by
  rcases stands_literalBy isPrintable v c h with h | h
  · exact h
  · exact isPrintable_of_isMark h

/-- An ASCII literal is ASCII and printable. -/
theorem isAscii_of_mem_asciiLiteral {v : Value} (h : c ∈ v.asciiLiteral) :
    isAscii c ∧ isPrintable c := by
  rcases stands_literalBy _ v c h with h | h
  · simpa using h
  · exact ⟨isAscii_of_isMark h, isPrintable_of_isMark h⟩

/-- Only a text is shown as it is. -/
theorem isPrintable_of_mem_shown {v : Value} (hv : ∀ s, v ≠ .text s) (h : c ∈ v.shown) :
    isPrintable c := by
  have hshown : v.shown = v.literal := by
    cases v with
    | text s => exact absurd rfl (hv s)
    | _ => rfl
  exact isPrintable_of_mem_literal (hshown ▸ h)

end Value

end KineticText
