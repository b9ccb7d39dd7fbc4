import KineticText.Proofs.Number.Grammar
import KineticText.Proofs.Number.Grids

/-! Every notation of a finite magnitude is a number of the grammar: the decimal to which it rounds
the magnitude. -/
namespace KineticText.Numeral

open Decimal

variable {style : Style} {w f ds : Text} {n m places bits : Nat} {e : Int} {q : ℚ}

/-- Behind any sign the numeral is a number of that size. -/
def Written (x : Numeral) (q : ℚ) : Prop := ∀ sign negative, Sign sign negative →
  ∃ d, Writes (sign ++ (x.whole ++ x.rest)) d ∧ d.negative = negative ∧ d.value = q

/-- The number of some digits, the first of them in the place of `10 ^ e`. -/
def valueFrom (ds : Text) (e : Int) : ℚ := Text.digitsValue ds * 10 ^ (e + 1 - ds.length)

/-! ### Digits -/

theorem isDigit_of_mem_replicate {c : Char} (h : c ∈ List.replicate n '0') : Text.isDigit c := by
  rw [List.eq_of_mem_replicate h]
  decide

theorem digits_append (hw : Digits w) (hf : Digits f) : Digits (w ++ f) := by
  intro c hc
  rcases List.mem_append.mp hc with hc | hc
  · exact hw c hc
  · exact hf c hc

theorem digits_digits (n m : Nat) : Digits (digits n m) :=
  digits_append (fun _ => isDigit_of_mem_replicate) fun _ => Text.isDigit_of_mem_ofNat

theorem digitsValue_digits (n m : Nat) : Text.digitsValue (digits n m) = m := by
  rw [digits, Text.digitsValue_append, Text.digitsValue_replicate_zero, Text.digitsValue_ofNat,
    Nat.zero_mul, Nat.zero_add]

theorem le_length_digits (n m : Nat) : n ≤ (digits n m).length := by
  rw [digits, List.length_append, List.length_replicate]
  omega

/-- Zeros at the end do not count. -/
theorem valueFrom_append_zeros (ds : Text) (n : Nat) (e : Int) :
    valueFrom (ds ++ List.replicate n '0') e = valueFrom ds e := by
  have hexp : e + 1 - ds.length = (e + 1 - (ds.length + n : Nat)) + n := by omega
  rw [valueFrom, Text.digitsValue_append, Text.digitsValue_replicate_zero, List.length_append,
    List.length_replicate, Nat.add_zero, valueFrom, hexp, zpow_add₀ (by norm_num), zpow_natCast]
  push_cast
  ring

/-- Each zero at the front takes up a place. -/
theorem valueFrom_zeros_append (n : Nat) (ds : Text) (e : Int) :
    valueFrom (List.replicate n '0' ++ ds) e = valueFrom ds (e - n) := by
  rw [valueFrom, Text.digitsValue_append, Text.digitsValue_replicate_zero, List.length_append,
    List.length_replicate, Nat.zero_mul, Nat.zero_add, valueFrom]
  congr 2
  omega

/-- What is stripped is zeros. -/
theorem exists_stripped (ds : Text) : ∃ n, ds = stripped ds ++ List.replicate n '0' := by
  have hsplit := List.takeWhile_append_dropWhile (p := (· = '0')) (l := (ds.drop 1).reverse)
  have hzeros : ((ds.drop 1).reverse.takeWhile (· = '0')) =
      List.replicate ((ds.drop 1).reverse.takeWhile (· = '0')).length '0' :=
    List.eq_replicate_iff.mpr ⟨rfl, fun c hc => by simpa using List.mem_takeWhile_imp hc⟩
  refine ⟨((ds.drop 1).reverse.takeWhile (· = '0')).length, ?_⟩
  rw [stripped, ← List.reverse_replicate, ← hzeros, List.append_assoc, ← List.reverse_append, hsplit,
    List.reverse_reverse, List.take_append_drop]

theorem valueFrom_stripped (ds : Text) (e : Int) : valueFrom (stripped ds) e = valueFrom ds e := by
  obtain ⟨n, hn⟩ := exists_stripped ds
  conv_rhs => rw [hn]
  rw [valueFrom_append_zeros]

theorem digits_stripped (h : Digits ds) : Digits (stripped ds) := by
  obtain ⟨n, hn⟩ := exists_stripped ds
  rw [hn] at h
  exact fun c hc => h c (List.mem_append_left _ hc)

theorem stripped_ne_nil (h : ds ≠ []) : stripped ds ≠ [] := by
  obtain ⟨c, ds, rfl⟩ := List.exists_cons_of_ne_nil h
  simp [stripped]

/-! ### Notations -/

theorem exponent_exponent (e : Int) : Exponent (exponent e) e := by
  have hne : digits 2 e.natAbs ≠ [] :=
    List.ne_nil_of_length_pos (Nat.zero_lt_of_lt (le_length_digits 2 _))
  have hd := digits_digits 2 e.natAbs
  rw [exponent]
  split
  · have hwritten := Exponent.written (.inl rfl) .minus hne hd
    rwa [digitsValue_digits, if_pos rfl, show -(e.natAbs : Int) = e by omega] at hwritten
  · have hwritten := Exponent.written (.inl rfl) .plus hne hd
    rwa [digitsValue_digits, if_neg (by decide), show (e.natAbs : Int) = e by omega] at hwritten

theorem significand_fraction (style : Style) (hw : w ≠ []) (hd : Digits (w ++ f)) :
    Significand (w ++ fraction style f) (w ++ f) f.length := by
  have hwd : Digits w := fun c hc => hd c (List.mem_append_left f hc)
  rw [fraction]
  split
  · rename_i h
    rw [h.1, List.append_nil]
    exact .whole hw hwd
  · exact .point hw hwd fun c hc => hd c (List.mem_append_right w hc)

/-- Digits with a point among them and an exponent behind. The length of the whole part tells the
place of the first digit. -/
theorem written_fraction (style : Style) {x : Text} (hw : w ≠ []) (hd : Digits (w ++ f))
    (hx : Exponent x e) :
    Written ⟨w, fraction style f ++ x⟩ (valueFrom (w ++ f) (e + w.length - 1)) := by
  intro sign negative hs
  have hwrites := Writes.mk hs (significand_fraction style hw hd) hx
  have hexp : e + w.length - 1 + 1 - (w ++ f).length = e - f.length := by
    rw [List.length_append]
    omega
  rw [List.append_assoc] at hwrites
  exact ⟨_, hwrites, rfl, by rw [valueFrom, hexp]; rfl⟩

theorem written_withExponent (style : Style) (h : ds ≠ []) (hd : Digits ds) (e : Int) :
    Written (withExponent style ds e) (valueFrom ds e) := by
  have hsplit : ds.take 1 ++ ds.drop 1 = ds := List.take_append_drop 1 ds
  have hwritten := written_fraction style (w := ds.take 1) (f := ds.drop 1) (by simpa using h)
    (hsplit.symm ▸ hd) (exponent_exponent e)
  have hone : (ds.take 1).length = 1 := by
    rw [List.length_take]
    exact Nat.min_eq_left (List.length_pos_of_ne_nil h)
  rwa [hsplit, hone, Nat.cast_one, add_sub_cancel_right] at hwritten

/-- Below one there are zeros between the point and the digits. -/
theorem written_positional_of_neg (style : Style) (h : ds ≠ []) (hd : Digits ds) (he : e < 0) :
    Written (positional style ds e) (valueFrom ds e) := by
  have hzeros : ['0'] ++ (List.replicate (-e - 1).toNat '0' ++ ds) =
      List.replicate (-e).toNat '0' ++ ds := by
    rw [← List.append_assoc, ← List.replicate_one, ← List.replicate_add]
    congr 2
    omega
  have hdigits := digits_append (fun _ => isDigit_of_mem_replicate (n := (-e).toNat)) hd
  have hwritten := written_fraction style (w := ['0']) (by simp) (hzeros.symm ▸ hdigits) .none
  have hexp : (0 : Int) + (['0'] : Text).length - 1 - (-e).toNat = e := by
    simp only [List.length_singleton]
    omega
  rw [hzeros, valueFrom_zeros_append, hexp, List.append_nil] at hwritten
  simpa only [positional, if_pos he, List.append_eq_nil_iff, h, and_false, false_and, if_false]
    using hwritten

/-- From one on the digits before the point are filled up with zeros, and one may follow it. -/
theorem written_positional_of_nonneg (style : Style) (hd : Digits ds) (he : 0 ≤ e) :
    Written (positional style ds e) (valueFrom ds e) := by
  obtain ⟨w, hw⟩ : ∃ w, ds.take (e.toNat + 1) ++
    List.replicate (e.toNat + 1 - ds.length) '0' = w := ⟨_, rfl⟩
  obtain ⟨f, hf⟩ : ∃ f, (if ds.drop (e.toNat + 1) = [] ∧ style.pointZero then ['0']
    else ds.drop (e.toNat + 1)) = f := ⟨_, rfl⟩
  have hlen : w.length = e.toNat + 1 := by
    rw [← hw, List.length_append, List.length_take, List.length_replicate]
    omega
  have hzeros : ∃ k, w ++ f = ds ++ List.replicate k '0' := by
    rw [← hw, ← hf]
    rcases Nat.lt_or_ge (e.toNat + 1) ds.length with hlt | hge
    · refine ⟨0, ?_⟩
      simp [Nat.not_le.mpr hlt, Nat.sub_eq_zero_of_le hlt.le]
    · rw [List.take_of_length_le hge, List.drop_of_length_le hge, List.append_assoc]
      split
      · exact ⟨e.toNat + 1 - ds.length + 1, by rw [← List.replicate_one, ← List.replicate_add]⟩
      · exact ⟨e.toNat + 1 - ds.length, by rw [List.append_nil]⟩
  obtain ⟨k, hk⟩ := hzeros
  have hdigits := digits_append hd fun _ => isDigit_of_mem_replicate (n := k)
  have hne : w ≠ [] := List.ne_nil_of_length_pos (hlen ▸ Nat.succ_pos _)
  have hwritten := written_fraction style hne (hk ▸ hdigits) .none
  have hexp : (0 : Int) + w.length - 1 = e := by omega
  rw [hexp, hk, valueFrom_append_zeros, List.append_nil] at hwritten
  simpa only [positional, if_neg (not_lt.mpr he), hw, hf] using hwritten

theorem written_balanced (style : Style) (limit : Int) (h : ds ≠ []) (hd : Digits ds) (e : Int) :
    Written (balanced style limit ds e) (valueFrom ds e) := by
  rw [balanced]
  split
  · rcases lt_or_ge e 0 with he | he
    · exact written_positional_of_neg style h hd he
    · exact written_positional_of_nonneg style hd he
  · exact written_withExponent style h hd e

/-! ### Rounding to places and to digits -/

/-- A number of places behind the point: the magnitude rounded to the grid of the last one. -/
theorem written_fixed (style : Style) (places bits : Nat) :
    Written (fixed style places bits)
      (Binary64.roundTo bits (-places) * 10 ^ (-places : Int)) := by
  have hlen := le_length_digits (places + 1) (Binary64.roundTo bits (-places))
  have hdigits := digits_digits (places + 1) (Binary64.roundTo bits (-places))
  have hvalue := digitsValue_digits (places + 1) (Binary64.roundTo bits (-places))
  simp only [fixed]
  generalize digits (places + 1) (Binary64.roundTo bits (-places)) = ds at *
  have hsplit := List.take_append_drop (ds.length - places) ds
  have htake : (ds.take (ds.length - places)).length = ds.length - places := by
    rw [List.length_take]
    omega
  have hwritten := written_fraction style
    (List.ne_nil_of_length_pos (by omega)) (hsplit.symm ▸ hdigits) .none
  have hexp : (0 : Int) + (ds.length - places : Nat) - 1 + 1 - ds.length = -places := by omega
  rwa [hsplit, htake, valueFrom, hexp, hvalue, List.append_nil] at hwritten

/-- A number of `n` digits is kept, and that of the next length ends in a zero, which is cut. -/
theorem take_ofNat_spec (hlow : 10 ^ n ≤ m) (hhigh : m ≤ 10 ^ (n + 1)) (e : Int) :
    ((Text.ofNat m).take (n + 1)).length = n + 1 ∧
      valueFrom ((Text.ofNat m).take (n + 1)) (e + ((Text.ofNat m).length - (n + 1) : Nat)) =
        m * 10 ^ (e - n) := by
  rcases Nat.lt_or_eq_of_le hhigh with hlt | rfl
  · have hlen := Text.length_ofNat_eq hlow hlt
    have hexp : e + 1 - (n + 1 : Nat) = e - n := by omega
    rw [← hlen, List.take_length, Nat.sub_self, Nat.cast_zero, add_zero, valueFrom,
      Text.digitsValue_ofNat, hlen, hexp]
    exact ⟨rfl, rfl⟩
  · have hlen := Text.length_ofNat_eq le_rfl (Nat.pow_lt_pow_succ (by decide : 1 < 10) (n := n))
    have hcut : Text.ofNat (10 ^ (n + 1)) = Text.ofNat (10 ^ n) ++ ['0'] := by
      rw [pow_succ', Text.ofNat_ten_mul (Nat.pow_pos (by decide))]
    have hexp : e + (n + 1 + 1 - (n + 1) : Nat) + 1 - (n + 1 : Nat) = e - n + 1 := by omega
    rw [hcut, List.take_left' hlen, List.length_append, hlen, List.length_singleton, valueFrom,
      Text.digitsValue_ofNat, hlen, hexp, zpow_add_one₀ (by norm_num)]
    refine ⟨rfl, ?_⟩
    push_cast
    ring

/-- There are `n` digits, and they write the magnitude rounded to the grid of the last of them. -/
theorem significant_spec (hn : 0 < n) (bits : Nat) :
    (significant n bits).1.length = n ∧ Digits (significant n bits).1 ∧
      valueFrom (significant n bits).1 (significant n bits).2 =
        Binary64.roundTo bits (Binary64.leading bits - n + 1) *
          10 ^ (Binary64.leading bits - n + 1) := by
  by_cases h : bits = 0
  · subst h
    have hzeros : valueFrom (List.replicate n '0') 0 = 0 := by
      rw [valueFrom, Text.digitsValue_replicate_zero, Nat.cast_zero, zero_mul]
    simp only [significant, if_pos]
    rw [Binary64.roundTo_zero, Nat.cast_zero, zero_mul]
    exact ⟨List.length_replicate, fun _ => isDigit_of_mem_replicate, hzeros⟩
  · obtain ⟨n, rfl⟩ := Nat.exists_eq_succ_of_ne_zero hn.ne'
    obtain ⟨hlow, hhigh⟩ := Binary64.roundTo_between (Nat.pos_of_ne_zero h) hn
    obtain ⟨hlen, hvalue⟩ := take_ofNat_spec hlow hhigh (Binary64.leading bits)
    have hexp : Binary64.leading bits - n.succ + 1 = Binary64.leading bits - n := by omega
    simp only [significant, if_neg h, hexp] at hlen hvalue ⊢
    exact ⟨hlen, fun c hc => Text.isDigit_of_mem_ofNat (List.mem_of_mem_take hc), hvalue⟩

theorem significant_ne_nil (hn : 0 < n) (bits : Nat) : (significant n bits).1 ≠ [] :=
  List.ne_nil_of_length_pos (hn.trans_eq (significant_spec hn bits).1.symm)

/-- One digit before the point and `places` behind it. -/
theorem written_scientific (style : Style) (places bits : Nat) :
    Written (scientific style places bits)
      (Binary64.roundTo bits (Binary64.leading bits - places) *
        10 ^ (Binary64.leading bits - places)) := by
  obtain ⟨-, hd, hvalue⟩ := significant_spec places.succ_pos bits
  have hexp : Binary64.leading bits - places.succ + 1 = Binary64.leading bits - places := by omega
  have hwritten := written_withExponent style (significant_ne_nil places.succ_pos bits) hd
    (significant places.succ bits).2
  rwa [hvalue, hexp] at hwritten

/-- A number of digits, one at least. What the style strips of them does not count. -/
theorem written_general (style : Style) (n bits : Nat) :
    Written (general style n bits)
      (Binary64.roundTo bits (Binary64.leading bits - (max n 1 : Nat) + 1) *
        10 ^ (Binary64.leading bits - (max n 1 : Nat) + 1)) := by
  have hn : 0 < max n 1 := by omega
  obtain ⟨-, hd, hvalue⟩ := significant_spec hn bits
  have hne := significant_ne_nil hn bits
  simp only [general]
  rw [← hvalue]
  by_cases hfull : style.full
  · rw [if_pos hfull]
    exact written_balanced style _ hne hd _
  · rw [if_neg hfull, ← valueFrom_stripped]
    exact written_balanced style _ (stripped_ne_nil hne) (digits_stripped hd) _

end KineticText.Numeral
