import KineticText.Text.Digit
import Mathlib.Data.List.DropRight
import Mathlib.Data.List.Induction
import Mathlib.Tactic.IntervalCases
import Mathlib.Tactic.Ring

/-! The numbers that runs of digits denote, and the writing of a number in decimal. -/
namespace KineticText.Text

variable {c : Char} {n : Nat}

/-! ### Values -/

theorem digitsValue_append_singleton (s : Text) (c : Char) :
    digitsValue (s ++ [c]) = 10 * digitsValue s + (digit? c).getD 0 := by
  rw [digitsValue, List.foldl_append]
  rfl

theorem digitsValue_append (s t : Text) :
    digitsValue (s ++ t) = digitsValue s * 10 ^ t.length + digitsValue t := by
  induction t using List.reverseRecOn with
  | nil => simp [digitsValue]
  | append_singleton t c ih =>
    rw [← List.append_assoc, digitsValue_append_singleton, ih, digitsValue_append_singleton,
      List.length_append, List.length_singleton]
    ring

theorem digitsValue_replicate_zero (n : Nat) : digitsValue (List.replicate n '0') = 0 := by
  induction n with
  | zero => rfl
  | succ n ih =>
    rw [List.replicate_succ', digitsValue_append_singleton, ih]
    rfl

/-- The letters of ASCII are no digits of any script. -/
theorem not_isDigit_of_isAlpha (h : c.isAlpha) : ¬ isDigit c := by
  have hrange : c.toNat < 0x30 ∨ 0x39 < c.toNat ∧ c.toNat < 0x660 := by
    rcases (Bool.or_eq_true _ _).mp h with h | h
    · have hupper : 0x41 ≤ c.toNat ∧ c.toNat ≤ 0x5A := of_decide_eq_true h
      omega
    · obtain ⟨hfrom, hto⟩ := (Bool.and_eq_true _ _).mp h
      have hfrom : 0x61 ≤ c.toNat := of_decide_eq_true hfrom
      have hto : c.toNat ≤ 0x7A := of_decide_eq_true hto
      omega
  have hzeros : ∀ z ∈ zeroDigits, z = 0x30 ∨ 0x660 ≤ z := by decide
  have hnone : zeroDigits.find? (fun z => z ≤ c.toNat && c.toNat ≤ z + 9) = none := by
    rw [List.find?_eq_none]
    intro z hz hrun
    rw [Bool.and_eq_true, decide_eq_true_iff, decide_eq_true_iff] at hrun
    have hcase := hzeros z hz
    omega
  rw [isDigit, digit?, hnone]
  exact Bool.false_ne_true

/-! ### Writing a number -/

theorem digit?_of_isDigit (h : c.isDigit) : digit? c = some (c.toNat - '0'.toNat) := by
  have hrange : 0x30 ≤ c.toNat ∧ c.toNat ≤ 0x39 := by
    simpa [Char.isDigit, UInt32.le_iff_toNat_le] using h
  simp [digit?, zeroDigits, hrange]

theorem isDigit_of_mem_ofNat (h : c ∈ ofNat n) : isDigit c := by
  rw [isDigit, digit?_of_isDigit (Nat.isDigit_of_mem_toDigits (by decide) le_rfl h)]
  rfl

theorem ofNat_ne_nil (n : Nat) : ofNat n ≠ [] := Nat.toDigits_ne_nil

theorem exists_length_ofNat (n : Nat) : ∃ k, (ofNat n).length = k + 1 :=
  Nat.exists_eq_succ_of_ne_zero (List.length_pos_of_ne_nil (ofNat_ne_nil n)).ne'

/-- A number is what its writing denotes. -/
theorem digitsValue_ofNat (n : Nat) : digitsValue (ofNat n) = n := by
  have hfold : digitsValue (ofNat n) = Nat.ofDigitChars 10 (ofNat n) 0 := by
    rw [digitsValue, Nat.ofDigitChars_eq_foldl]
    apply List.foldl_ext
    intro m c hc
    rw [digit?_of_isDigit (Nat.isDigit_of_mem_toDigits (by decide) le_rfl hc), Option.getD_some]
  rw [hfold]
  exact Nat.ofDigitChars_ten_toDigits

/-- Only zero begins with a zero. -/
theorem head?_ofNat_ne (hn : n ≠ 0) : (ofNat n).head? ≠ some '0' := by
  induction n using Nat.strongRecOn with
  | ind n ih =>
    rw [ofNat, Nat.toDigits_eq_if (by decide)]
    split
    · interval_cases n
      · exact absurd rfl hn
      all_goals decide
    · rename_i h
      rw [← ofNat, List.head?_append_of_ne_nil _ (ofNat_ne_nil (n / 10))]
      exact ih (n / 10) (by omega) (by omega)

theorem ofNat_ten_mul (hn : 0 < n) : ofNat (10 * n) = ofNat n ++ ['0'] :=
  (Nat.toDigits_append_toDigits (d := 0) (by decide) hn (by decide)).symm

theorem length_ofNat_le_iff {k : Nat} (hk : 0 < k) : (ofNat n).length ≤ k ↔ n < 10 ^ k :=
  Nat.length_toDigits_le_iff (by decide) hk

/-- The length of a number tells the powers of ten that it is between. -/
theorem ofNat_between (hn : 0 < n) {k : Nat} (hk : (ofNat n).length = k + 1) :
    10 ^ k ≤ n ∧ n < 10 ^ (k + 1) := by
  constructor
  · rcases Nat.eq_zero_or_pos k with rfl | h
    · exact hn
    · rw [← not_lt, ← length_ofNat_le_iff h, hk]
      omega
  · exact (length_ofNat_le_iff k.succ_pos).mp hk.le

theorem length_ofNat_eq {k : Nat} (h : 10 ^ k ≤ n) (h' : n < 10 ^ (k + 1)) :
    (ofNat n).length = k + 1 := by
  obtain ⟨j, hj⟩ := exists_length_ofNat n
  obtain ⟨hlow, hhigh⟩ := ofNat_between ((Nat.pow_pos (by decide)).trans_le h) hj
  have hle : k < j + 1 := (Nat.pow_lt_pow_iff_right (by decide)).mp (h.trans_lt hhigh)
  have hge : j < k + 1 := (Nat.pow_lt_pow_iff_right (by decide)).mp (hlow.trans_lt h')
  omega

end KineticText.Text
