import KineticText.Proofs.Number.Range
import KineticText.Proofs.Text.Runs

/-! The texts that are numbers, and the decimals that they write. -/
namespace KineticText.Decimal

variable {s w f ds : Text} {c : Char} {n : Nat} {e : Int} {negative : Bool} {d : Decimal}

def Digits (s : Text) : Prop := ∀ c ∈ s, Text.isDigit c

/-- The optional sign of a number or an exponent. -/
inductive Sign : Text → Bool → Prop
  | none : Sign [] false
  | plus : Sign ['+'] false
  | minus : Sign ['-'] true

/-- Digits with at most one point among them; the point is counted from the right. -/
inductive Significand : Text → Text → Nat → Prop
  | whole {w : Text} : w ≠ [] → Digits w → Significand w w 0
  | point {w f : Text} : w ≠ [] → Digits w → Digits f → Significand (w ++ '.' :: f) (w ++ f) f.length
  | fraction {f : Text} : f ≠ [] → Digits f → Significand ('.' :: f) f f.length

/-- The optional exponent at the end. -/
inductive Exponent : Text → Int → Prop
  | none : Exponent [] 0
  | written {c : Char} {sign ds : Text} {negative : Bool} : c = 'e' ∨ c = 'E' → Sign sign negative →
      ds ≠ [] → Digits ds →
      Exponent (c :: (sign ++ ds))
        (if negative then -(Text.digitsValue ds : Int) else Text.digitsValue ds)

/-- The text is a number, and this is the decimal that it writes. -/
inductive Writes : Text → Decimal → Prop
  | mk {sign significand exponent ds : Text} {negative : Bool} {places : Nat} {e : Int} :
      Sign sign negative → Significand significand ds places → Exponent exponent e →
      Writes (sign ++ (significand ++ exponent)) ⟨negative, Text.digitsValue ds, e - places⟩

/-! ### Signs -/

/-- The text does not begin with a sign. -/
def Unsigned (s : Text) : Prop := ∀ c ∈ s.head?, c ≠ '+' ∧ c ≠ '-'

theorem isDigit_ne_sign (h : Text.isDigit c) : c ≠ '+' ∧ c ≠ '-' := by
  constructor
  · rintro rfl
    exact absurd h (by decide)
  · rintro rfl
    exact absurd h (by decide)

theorem Digits.unsigned (h : Digits s) (hs : s ≠ []) (t : Text) : Unsigned (s ++ t) := by
  obtain ⟨c, s, rfl⟩ := List.exists_cons_of_ne_nil hs
  intro c' hc'
  obtain rfl : c = c' := by simpa using hc'
  exact isDigit_ne_sign (h c (by simp))

theorem Significand.unsigned (h : Significand s ds n) (t : Text) : Unsigned (s ++ t) := by
  cases h with
  | whole hw hd => exact hd.unsigned hw t
  | point hw hd _ =>
    rw [List.append_assoc]
    exact hd.unsigned hw _
  | fraction => simp [Unsigned]

theorem takeSign_append (hs : Sign s negative) {t : Text} (ht : Unsigned t) :
    takeSign (s ++ t) = (negative, t) := by
  cases hs with
  | plus => rfl
  | minus => rfl
  | none =>
    cases t with
    | nil => rfl
    | cons c t =>
      obtain ⟨hp, hm⟩ := ht c rfl
      simp [takeSign, hp, hm]

theorem exists_sign (s : Text) :
    ∃ sign t, takeSign s = ((takeSign s).1, t) ∧ s = sign ++ t ∧ Sign sign (takeSign s).1 := by
  unfold takeSign
  split
  · exact ⟨['+'], _, rfl, rfl, .plus⟩
  · exact ⟨['-'], _, rfl, rfl, .minus⟩
  · exact ⟨[], _, rfl, rfl, .none⟩

/-! ### Exponents -/

theorem Exponent.exponent?_eq (h : Exponent s e) : exponent? s = some e := by
  cases h with
  | none => rfl
  | written hc hs hne hd =>
    have hu := hd.unsigned hne []
    rw [List.append_nil] at hu
    simp only [exponent?, takeSign_append hs hu]
    rw [if_pos ⟨hc, hne, List.all_eq_true.mpr hd⟩]

theorem exponent?_eq_some_iff : exponent? s = some e ↔ Exponent s e := by
  constructor
  · intro h
    cases s with
    | nil =>
      obtain rfl := Option.some.inj h
      exact .none
    | cons c s =>
      obtain ⟨sign, ds, hds, rfl, hs⟩ := exists_sign s
      rw [exponent?, hds] at h
      obtain ⟨⟨hc, hne, hd⟩, he⟩ := Option.ite_none_right_eq_some.mp h
      obtain rfl := Option.some.inj he
      exact .written hc hs hne (List.all_eq_true.mp hd)
  · exact Exponent.exponent?_eq

/-! ### Significands -/

/-- The text does not go on with a digit or a point. -/
def Stops (s : Text) : Prop := ∀ c ∈ s.head?, ¬ Text.isDigit c ∧ c ≠ '.'

theorem Exponent.stops (h : Exponent s e) : Stops s := by
  cases h with
  | none => simp [Stops]
  | written hc =>
    intro c' hc'
    obtain rfl := Option.some.inj hc'
    rcases hc with rfl | rfl <;> decide

theorem takeWhile_digits (hw : Digits w) (hs : ∀ c ∈ s.head?, ¬ Text.isDigit c) :
    (w ++ s).takeWhile Text.isDigit = w ∧ (w ++ s).dropWhile Text.isDigit = s :=
  ⟨Text.takeWhile_append_stop hw hs, Text.dropWhile_append_stop hw hs⟩

theorem Significand.significand?_eq (h : Significand s ds n) {t : Text} (ht : Stops t) :
    ∃ whole fraction, significand? (s ++ t) = some (whole, fraction, t) ∧
      ds = whole ++ fraction ∧ n = fraction.length := by
  have hdigit (c : Char) (hc : c ∈ t.head?) : ¬ Text.isDigit c := (ht c hc).1
  have hpoint (f : Text) : ∀ c ∈ ('.' :: (f ++ t)).head?, ¬ Text.isDigit c := by
    rintro c hc
    obtain rfl := Option.some.inj hc
    decide
  cases h with
  | whole hw hd =>
    obtain ⟨htake, hdrop⟩ := takeWhile_digits hd hdigit
    refine ⟨s, [], ?_, by simp, rfl⟩
    unfold significand?
    simp only [htake, hdrop]
    split
    · exact absurd rfl (ht '.' rfl).2
    · rw [if_neg hw]
  | @point w f hw hd hf =>
    obtain ⟨htake, hdrop⟩ := takeWhile_digits hd (hpoint f)
    obtain ⟨hftake, hfdrop⟩ := takeWhile_digits hf hdigit
    refine ⟨w, f, ?_, rfl, rfl⟩
    unfold significand?
    simp [htake, hdrop, hftake, hfdrop, hw]
  | fraction hne hf =>
    obtain ⟨htake, hdrop⟩ := takeWhile_digits (w := []) (by simp [Digits]) (hpoint ds)
    obtain ⟨hftake, hfdrop⟩ := takeWhile_digits hf hdigit
    refine ⟨[], ds, ?_, rfl, rfl⟩
    unfold significand?
    simp only [List.nil_append, List.cons_append] at htake hdrop ⊢
    simp [htake, hdrop, hftake, hfdrop, hne]

theorem digits_takeWhile (s : Text) : Digits (s.takeWhile Text.isDigit) :=
  List.all_eq_true.mp List.all_takeWhile

theorem exists_significand {whole fraction rest : Text}
    (h : significand? s = some (whole, fraction, rest)) :
    ∃ t, s = t ++ rest ∧ Significand t (whole ++ fraction) fraction.length := by
  have hs := List.takeWhile_append_dropWhile (p := Text.isDigit) (l := s)
  unfold significand? at h
  split at h
  · rename_i t ht
    obtain ⟨hne, he⟩ := Option.ite_none_left_eq_some.mp h
    cases he
    have hf := List.takeWhile_append_dropWhile (p := Text.isDigit) (l := t)
    refine ⟨s.takeWhile Text.isDigit ++ '.' :: t.takeWhile Text.isDigit, ?_, ?_⟩
    · rw [List.append_assoc, List.cons_append, hf, ← ht, hs]
    · by_cases hw : s.takeWhile Text.isDigit = []
      · rw [hw] at hne ⊢
        exact .fraction (by simpa using hne) (digits_takeWhile t)
      · exact .point hw (digits_takeWhile s) (digits_takeWhile t)
  · obtain ⟨hne, he⟩ := Option.ite_none_left_eq_some.mp h
    cases he
    refine ⟨s.takeWhile Text.isDigit, hs.symm, ?_⟩
    rw [List.append_nil]
    exact .whole hne (digits_takeWhile s)

/-! ### Numbers -/

/-- The parser reads exactly the numbers, each as the decimal that it writes. -/
theorem parse?_eq_some_iff : parse? s = some d ↔ Writes s d := by
  constructor
  · intro h
    obtain ⟨sign, t, ht, rfl, hs⟩ := exists_sign s
    rw [parse?, ht] at h
    obtain ⟨⟨whole, fraction, rest⟩, hsig, h⟩ := Option.bind_eq_some_iff.mp h
    obtain ⟨e, he, h⟩ := Option.bind_eq_some_iff.mp h
    obtain rfl := Option.some.inj h
    obtain ⟨u, rfl, hu⟩ := exists_significand hsig
    exact .mk hs hu (exponent?_eq_some_iff.mp he)
  · rintro ⟨hs, hsig, he⟩
    obtain ⟨whole, fraction, heq, rfl, rfl⟩ := hsig.significand?_eq he.stops
    simp [parse?, takeSign_append hs (hsig.unsigned _), heq, he.exponent?_eq]

end KineticText.Decimal

namespace KineticText

/-- A parameter has a value exactly if it is a number of finite size. -/
theorem number?_isSome_iff {s : Text} : (number? s).isSome ↔ ∃ d, Decimal.Writes s d ∧ d.Finite := by
  simp only [← Decimal.parse?_eq_some_iff, number?]
  cases Decimal.parse? s with
  | none => simp
  | some d => by_cases h : d.Finite <;> simp [h, Decimal.magnitude_lt_infinityBits_iff]

end KineticText
