import KineticText.Proofs.Text.Digits
import KineticText.Value.Arranged

/-! An arranged value takes up the width that its layout asks for at least, and is a text between
filling. -/
namespace KineticText.Layout

variable {l : Layout} {size width : Nat} {sign body ds s t : Text} {a : Alignment} {c : Char}

/-! ### Fields -/

/-- The filling stands around a text and its sign, or between them, as much as is missing. -/
theorem exists_filling (l : Layout) (a : Alignment) (sign body : Text) :
    ∃ i j k, i + j + k = l.minWidth - (sign.length + body.length) ∧
      l.aligned a sign body = List.replicate i l.filling ++ (sign ++
        (List.replicate j l.filling ++ (body ++ List.replicate k l.filling))) := by
  obtain ⟨n, hn⟩ : ∃ n, l.minWidth - (sign.length + body.length) = n := ⟨_, rfl⟩
  rw [hn]
  cases a with
  | left => exact ⟨0, 0, n, by omega, by simp [aligned, padding, hn]⟩
  | right => exact ⟨n, 0, 0, by omega, by simp [aligned, padding, hn]⟩
  | center =>
    refine ⟨n / 2, 0, n - n / 2, by omega, ?_⟩
    have hle : min (n / 2) n = n / 2 := by omega
    simp [aligned, padding, hn, hle]
  | afterSign => exact ⟨0, n, 0, by omega, by simp [aligned, padding, hn]⟩

theorem length_aligned (l : Layout) (a : Alignment) (sign body : Text) :
    (l.aligned a sign body).length = max l.minWidth (sign.length + body.length) := by
  obtain ⟨i, j, k, hsum, heq⟩ := exists_filling l a sign body
  rw [heq]
  simp only [List.length_append, List.length_replicate]
  omega

/-! ### Groups of digits -/

/-- A separator for each full group behind the first digit. -/
theorem length_grouped (size : Nat) (c : Char) (ds : Text) :
    (grouped size c ds).length = ds.length + (ds.length - 1) / size := by
  have hreverse : ds.length = ds.reverse.length := List.length_reverse.symm
  rw [grouped, List.length_reverse, hreverse]
  induction ds.reverse using List.reverseRecOn with
  | nil => simp
  | append_singleton ds d ih =>
    rw [List.zipIdx_append, List.flatMap_append, List.length_append, ih, List.length_append,
      List.length_singleton, Nat.add_sub_cancel]
    have hstep : ds.length / size = (ds.length - 1) / size +
        if 0 < ds.length ∧ ds.length % size = 0 then 1 else 0 := by
      cases ds.length with
      | zero => simp
      | succ n => simp [Nat.succ_div, Nat.dvd_iff_mod_eq_zero]
    rw [hstep]
    by_cases hfull : 0 < ds.length ∧ ds.length % size = 0 <;> simp [hfull] <;> omega

/-- Without the separators the digits are as they were. -/
theorem filter_grouped (hc : c ∉ ds) (size : Nat) : (grouped size c ds).filter (· ≠ c) = ds := by
  rw [grouped, List.filter_reverse, List.filter_flatMap, ← List.reverse_inj, List.reverse_reverse]
  have hitems : ∀ x ∈ ds.reverse.zipIdx,
      (if 0 < x.2 ∧ x.2 % size = 0 then [c, x.1] else [x.1]).filter (· ≠ c) = [x.1] := by
    intro x hx
    have hmem : x.1 ∈ ds := List.mem_reverse.mp (List.fst_mem_of_mem_zipIdx hx)
    have hne : x.1 ≠ c := fun h => hc (h ▸ hmem)
    split <;> simp [hne]
  calc _ = ds.reverse.zipIdx.flatMap fun x => [x.1] := List.flatMap_congr hitems
    _ = ds.reverse := by rw [← List.map_eq_flatMap, List.zipIdx_map_fst]

/-- The number of digits is the least one whose groups take up the width. -/
theorem digitsFor_spec (hs : 0 < size) (width : Nat) :
    width ≤ digitsFor size width + (digitsFor size width - 1) / size ∧
      ∀ n, 0 < n → width ≤ n + (n - 1) / size → digitsFor size width ≤ n := by
  have hwidth := Nat.div_add_mod width (size + 1)
  have hmod := Nat.mod_lt width (Nat.succ_pos size)
  rw [digitsFor]
  generalize width / (size + 1) = q at *
  generalize width % (size + 1) = r at *
  obtain rfl : width = size * q + q + r := by rw [← hwidth]; ring
  have hsub : size * q + q + r - q = size * q + r := by omega
  rw [hsub]
  split
  · rename_i hr
    subst hr
    constructor
    · simp only [Nat.add_zero, Nat.add_sub_cancel, Nat.mul_div_cancel_left q hs]
      omega
    · intro n hn hle
      by_contra hlt
      have hdiv : (n - 1) / size < q := (Nat.div_lt_iff_lt_mul hs).mpr (by rw [Nat.mul_comm]; omega)
      omega
  · rename_i hr
    constructor
    · have hdiv : (size * q + r + 0 - 1) / size = q := by
        rw [Nat.add_zero, Nat.add_sub_assoc (by omega), Nat.mul_add_div hs,
          Nat.div_eq_of_lt (by omega), Nat.add_zero]
      rw [hdiv]
      omega
    · intro n hn hle
      by_contra hlt
      have hdiv : (n - 1) / size < q + 1 :=
        (Nat.div_lt_iff_lt_mul hs).mpr (by rw [Nat.mul_comm, Nat.mul_add]; omega)
      omega

/-! ### Numerals -/

theorem groupSize_pos (l : Layout) : 0 < l.groupSize := by
  rw [groupSize]
  split <;> decide

theorem le_length_wholePart (l : Layout) (width : Nat) (ds : Text) :
    width ≤ (l.wholePart width ds).length := by
  rw [wholePart]
  cases l.separator with
  | none =>
    simp only [Option.isSome_none, Bool.false_eq_true, if_false, List.length_append,
      List.length_replicate]
    omega
  | some s =>
    have hspec := (digitsFor_spec l.groupSize_pos width).1
    simp only [Option.isSome_some, if_true, length_grouped, List.length_append,
      List.length_replicate]
    generalize digitsFor l.groupSize width = n at hspec ⊢
    have hle : n ≤ n - ds.length + ds.length := by omega
    have hdiv := Nat.div_le_div_right (c := l.groupSize) (Nat.sub_le_sub_right hle 1)
    omega

/-- Without the separators the digits are as they were, behind zeros. -/
theorem filter_wholePart (hs : ∀ s ∈ l.separator, s.char ∉ ds) (width : Nat) :
    ∃ n, (l.wholePart width ds).filter (fun c => ∀ s ∈ l.separator, c ≠ s.char) =
      List.replicate n '0' ++ ds := by
  rw [wholePart]
  cases hsep : l.separator with
  | none =>
    refine ⟨width - ds.length, ?_⟩
    simp
  | some s =>
    refine ⟨digitsFor l.groupSize width - ds.length, ?_⟩
    have hzeros : s.char ∉ List.replicate (digitsFor l.groupSize width - ds.length) '0' ++ ds := by
      rw [List.mem_append, not_or]
      refine ⟨fun hc => ?_, hs s hsep⟩
      cases s <;> exact absurd (List.eq_of_mem_replicate hc) (by decide)
    have hfilter := filter_grouped hzeros l.groupSize
    simpa using hfilter

theorem minWidth_le_length_arrangeNumeral (l : Layout) (negative : Bool) (mark : Text)
    (n : Numeral) : l.minWidth ≤ (l.arrangeNumeral negative mark n).length := by
  rw [arrangeNumeral, length_aligned]
  exact le_max_left _ _

/-! ### Values -/

theorem minWidth_le_length_arrangeText (h : l.arrangeText s = .ok t) : l.minWidth ≤ t.length := by
  unfold arrangeText at h
  split at h
  · cases h
  · obtain rfl := Except.ok.inj h
    rw [length_aligned]
    exact le_max_left _ _
  · cases h

/-- A text stands between its filling, whole unless there is a precision. -/
theorem exists_filling_of_arrangeText (h : l.arrangeText s = .ok t) :
    ∃ i j, t = List.replicate i l.filling ++
      ((l.precision.elim s fun n => s.take n) ++ List.replicate j l.filling) := by
  unfold arrangeText at h
  split at h
  · cases h
  · obtain rfl := Except.ok.inj h
    obtain ⟨i, j, k, -, heq⟩ := exists_filling l (l.alignment.getD .left) []
      (l.precision.elim s fun n => s.take n)
    refine ⟨i + j, k, ?_⟩
    rw [heq, List.nil_append, List.replicate_add, List.append_assoc]
  · cases h

theorem minWidth_le_length_arrangeNumber {x : Float} (h : l.arrangeNumber x = .ok t) :
    l.minWidth ≤ t.length := by
  unfold arrangeNumber at h
  split at h
  · cases h
  · split at h
    · cases h
    · obtain rfl := Except.ok.inj h
      exact minWidth_le_length_arrangeNumeral l _ _ _

theorem minWidth_le_length_arrangeCharacter {n : Int} (h : l.arrangeCharacter n = .ok t) :
    l.minWidth ≤ t.length := by
  unfold arrangeCharacter at h
  split at h
  · cases h
  split at h
  · cases h
  split at h
  · cases h
  · obtain rfl := Except.ok.inj h
    exact minWidth_le_length_arrangeNumeral l _ _ _

theorem minWidth_le_length_arrangeInteger {x : Subject} {n : Int}
    (h : l.arrangeInteger x n = .ok t) : l.minWidth ≤ t.length := by
  simp only [arrangeInteger] at h
  split at h
  · split at h
    · exact minWidth_le_length_arrangeNumber h
    · cases h
  split at h
  · cases h
  split at h
  · cases h
  split at h
  · cases h
  split at h
  · exact minWidth_le_length_arrangeCharacter h
  · obtain rfl := Except.ok.inj h
    exact minWidth_le_length_arrangeNumeral l _ _ _

/-- A value under a layout is at least as wide as the layout says. -/
theorem minWidth_le_length_arranged {layout : Text} {v : Value} (hne : layout ≠ [])
    (h : v.arranged layout = .ok t) : ∃ x l, parse x layout = .ok l ∧ l.minWidth ≤ t.length := by
  obtain ⟨c, rest, rfl⟩ := List.exists_cons_of_ne_nil hne
  have hparsed (x : Subject) {arrange : Layout → Except Error Text}
      (hbind : (parse x (c :: rest) >>= arrange) = .ok t)
      (hwidth : ∀ l, arrange l = .ok t → l.minWidth ≤ t.length) :
      ∃ x l, parse x (c :: rest) = .ok l ∧ l.minWidth ≤ t.length := by
    cases hp : parse x (c :: rest) with
    | error e =>
      rw [hp] at hbind
      cases hbind
    | ok l =>
      rw [hp] at hbind
      exact ⟨x, l, hp, hwidth l hbind⟩
  cases v with
  | text s => exact hparsed .text h fun l => minWidth_le_length_arrangeText
  | integer n => exact hparsed .integer h fun l => minWidth_le_length_arrangeInteger
  | bool b => exact hparsed .bool h fun l => minWidth_le_length_arrangeInteger
  | number x => exact hparsed .number h fun l => minWidth_le_length_arrangeNumber
  | null | list _ | record _ => cases h

end KineticText.Layout
