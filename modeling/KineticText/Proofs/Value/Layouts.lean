import KineticText.Proofs.Text.Digits
import KineticText.Proofs.Text.Runs
import KineticText.Value.Layout

/-! A layout is read back as it is written. -/
namespace KineticText

def Alignment.char : Alignment → Char
  | left => '<'
  | right => '>'
  | center => '^'
  | afterSign => '='

def SignRule.char : SignRule → Char
  | nothing => '-'
  | plus => '+'
  | blank => ' '

namespace Layout

variable {α : Type} {c : Char} {s t : Text} {n : Nat} {x : Subject} {l : Layout}

/-! ### Writing -/

def writtenMark (b : Bool) (c : Char) : Text := if b then [c] else []

def writtenCount (o : Option Nat) : Text := o.elim [] Text.ofNat

def writtenPrecision (o : Option Nat) : Text := o.elim [] fun n => '.' :: Text.ofNat n

/-! The parts of a layout, each with all that follow it. -/

def fromPrecision (l : Layout) : Text := writtenPrecision l.precision ++ l.letter.toList

def fromSeparator (l : Layout) : Text :=
  (l.separator.map Separator.char).toList ++ l.fromPrecision

def fromWidth (l : Layout) : Text := writtenCount l.width ++ l.fromSeparator

def fromZeros (l : Layout) : Text := writtenMark l.zeros '0' ++ l.fromWidth

def fromAlternate (l : Layout) : Text := writtenMark l.alternate '#' ++ l.fromZeros

def fromPlainZero (l : Layout) : Text := writtenMark l.plainZero 'z' ++ l.fromAlternate

def fromSign (l : Layout) : Text := (l.sign.map SignRule.char).toList ++ l.fromPlainZero

def written (l : Layout) : Text :=
  l.fill.toList ++ ((l.alignment.map Alignment.char).toList ++ l.fromSign)

/-- The character is a letter of a notation, or could be one. -/
def isLetter (c : Char) : Bool := (c.isAlpha || c = '%') && c ≠ 'z'

/-- What is written of the layout stands for it and nothing else. -/
structure Writable (x : Subject) (l : Layout) : Prop where
  fill : l.fill ≠ none → l.alignment ≠ none
  zeros : l.fill ≠ none → l.zeros = false
  width : ∀ n ∈ l.width, n < Text.countBound
  width_ne_zero : l.fill = none → l.zeros = false → l.width ≠ some 0
  precision : ∀ n ∈ l.precision, n < Text.countBound
  letter : ∀ c ∈ l.letter, isLetter c
  no_letter : l.letter = none → x.letter? = none
  separator : ∀ s ∈ l.separator, allows l.letter s

/-! ### Reading -/

theorem takeOne_append {read : Char → Option α} {write : α → Char}
    (hwrite : ∀ a, read (write a) = some a) (o : Option α) (ht : ∀ c ∈ t, read c = none) :
    takeOne read ((o.map write).toList ++ t) = (o, t) := by
  cases o with
  | some a => simp [takeOne, hwrite]
  | none =>
    cases t with
    | nil => rfl
    | cons c t => simp [takeOne, ht c]

theorem takeMark_cons (c : Char) (s : Text) : takeMark c (c :: s) = (true, s) := by simp [takeMark]

theorem takeMark_append (b : Bool) (ht : t.head? ≠ some c) :
    takeMark c (writtenMark b c ++ t) = (b, t) := by
  cases b with
  | true => exact takeMark_cons c t
  | false => simp [takeMark, writtenMark, ht]

theorem takeCount_append {o : Option Nat} (h : ∀ n ∈ o, n < Text.countBound)
    (ht : ∀ c ∈ t.head?, ¬ Text.isDigit c) : takeCount (writtenCount o ++ t) = .ok (o, t) := by
  cases o with
  | none =>
    have hdigits : t.takeWhile Text.isDigit = [] :=
      Text.takeWhile_append_stop (p := Text.isDigit) (w := []) (by simp) ht
    simp only [takeCount, writtenCount, Option.elim_none, List.nil_append, hdigits, if_true]
  | some n =>
    have hdigits := Text.takeWhile_append_stop (p := Text.isDigit) (w := Text.ofNat n)
      (fun _ => Text.isDigit_of_mem_ofNat) ht
    simp only [takeCount, writtenCount, Option.elim_some, hdigits, Text.digitsValue_ofNat]
    rw [if_neg (Text.ofNat_ne_nil n), if_neg (Nat.not_le.mpr (h n rfl)), List.drop_left' rfl]

theorem takeSeparator_append (o : Option Separator) (ht : ∀ c ∈ t, separator? c = none) :
    takeSeparator ((o.map Separator.char).toList ++ t) = .ok (o, t) := by
  have hchar : ∀ s : Separator, separator? s.char = some s := fun s => by cases s <;> rfl
  have hfound := takeOne_append hchar o ht
  rw [takeSeparator, hfound]
  split
  · rename_i h
    obtain ⟨-, rfl⟩ := Prod.mk.inj h
    exact absurd (ht '_' (by simp)) (by decide)
  · rename_i h
    obtain ⟨-, rfl⟩ := Prod.mk.inj h
    exact absurd (ht ',' (by simp)) (by decide)
  · rfl

theorem takePrecision_append {o : Option Nat} (h : ∀ n ∈ o, n < Text.countBound)
    (ht : ∀ c ∈ t.head?, ¬ Text.isDigit c ∧ c ≠ '.') :
    takePrecision (writtenPrecision o ++ t) = .ok (o, t) := by
  have hdigit : ∀ c ∈ t.head?, ¬ Text.isDigit c := fun c hc => (ht c hc).1
  cases o with
  | none =>
    have hmark := takeMark_append (c := '.') false fun hc => (ht '.' hc).2 rfl
    simp only [writtenMark, Bool.false_eq_true, if_false, List.nil_append] at hmark
    simp only [takePrecision, writtenPrecision, Option.elim_none, List.nil_append, hmark]
  | some n =>
    have hcount := takeCount_append (o := some n) h hdigit
    simp only [writtenCount, Option.elim_some] at hcount
    simp only [takePrecision, writtenPrecision, Option.elim_some, List.cons_append, takeMark_cons,
      hcount]
    rfl

theorem takeAlignment_append {fill : Option Char} {a : Option Alignment}
    (h : fill ≠ none → a ≠ none) (ht : ∀ c ∈ t, alignment? c = none) :
    takeAlignment (fill.toList ++ ((a.map Alignment.char).toList ++ t)) = (fill, a, t) := by
  have hread {t : Text} (a : Option Alignment) (ht : ∀ c ∈ t, alignment? c = none) :
      takeOne alignment? ((a.map Alignment.char).toList ++ t) = (a, t) :=
    takeOne_append (fun a => by cases a <;> rfl) a ht
  rw [takeAlignment]
  cases fill with
  | some f =>
    obtain ⟨a, rfl⟩ := Option.ne_none_iff_exists'.mp (h (by simp))
    have hfound := hread (some a) ht
    simp only [Option.toList_some, List.cons_append, List.drop_one, List.tail_cons, List.nil_append,
      hfound, List.head?_cons]
  | none =>
    have hnone : (takeOne alignment? (((a.map Alignment.char).toList ++ t).drop 1)).1 = none := by
      cases a with
      | some a => exact congrArg Prod.fst (hread none ht)
      | none => exact congrArg Prod.fst (hread none fun c hc => ht c (List.mem_of_mem_drop hc))
    have hfound := hread a ht
    simp only [Option.toList_none, List.nil_append]
    split
    · rename_i hsome
      rw [hsome] at hnone
      exact nomatch hnone
    · rw [hfound]

/-! ### Characters of the parts -/

theorem separator?_eq_none (h : c ≠ ',' ∧ c ≠ '_') : separator? c = none := by
  unfold separator?
  split <;> simp_all

theorem sign?_eq_none (h : c ≠ '-' ∧ c ≠ '+' ∧ c ≠ ' ') : sign? c = none := by
  unfold sign?
  split <;> simp_all

theorem alignment?_eq_none (h : c ≠ '<' ∧ c ≠ '>' ∧ c ≠ '^' ∧ c ≠ '=') : alignment? c = none := by
  unfold alignment?
  split <;> simp_all

theorem not_isDigit_of_isLetter (h : isLetter c) : ¬ Text.isDigit c := by
  simp only [isLetter, Bool.and_eq_true, Bool.or_eq_true, decide_eq_true_eq] at h
  rcases h.1 with h | rfl
  · exact Text.not_isDigit_of_isAlpha h
  · decide

/-- The character can stand behind the separator. -/
def isEnding (c : Char) : Bool := Text.isDigit c || c = '.' || isLetter c

theorem isEnding_of_mem (h : l.Writable x) (hc : c ∈ l.fromPrecision) : isEnding c := by
  rcases List.mem_append.mp hc with hc | hc
  · cases hp : l.precision with
    | none => simp [writtenPrecision, hp] at hc
    | some n =>
      simp only [writtenPrecision, hp, Option.elim_some, List.mem_cons] at hc
      rcases hc with rfl | hc
      · rfl
      · simp [isEnding, Text.isDigit_of_mem_ofNat hc]
  · simp [isEnding, h.letter c (by simpa using hc)]

/-- The character can stand behind the mark for zeros. -/
def isSize (c : Char) : Bool := isEnding c || c = ',' || c = '_'

theorem isSize_of_mem (h : l.Writable x) (hc : c ∈ l.fromZeros) : isSize c := by
  have hdigit {c : Char} (hc : Text.isDigit c) : isSize c := by simp [isSize, isEnding, hc]
  rcases List.mem_append.mp hc with hc | hc
  · cases hz : l.zeros with
    | false => simp [writtenMark, hz] at hc
    | true =>
      rw [show c = '0' by simpa [writtenMark, hz] using hc]
      decide
  rcases List.mem_append.mp hc with hc | hc
  · cases hw : l.width with
    | none => simp [writtenCount, hw] at hc
    | some n => exact hdigit (Text.isDigit_of_mem_ofNat (by simpa [writtenCount, hw] using hc))
  rcases List.mem_append.mp hc with hc | hc
  · cases hs : l.separator with
    | none => simp [hs] at hc
    | some s => cases s <;> simp_all [Separator.char, isSize]
  · simp [isSize, isEnding_of_mem h hc]

theorem mem_fromAlternate (h : l.Writable x) (hc : c ∈ l.fromAlternate) : c = '#' ∨ isSize c := by
  rcases List.mem_append.mp hc with hc | hc
  · cases ha : l.alternate <;> simp_all [writtenMark]
  · exact .inr (isSize_of_mem h hc)

theorem mem_fromPlainZero (h : l.Writable x) (hc : c ∈ l.fromPlainZero) :
    c = 'z' ∨ c = '#' ∨ isSize c := by
  rcases List.mem_append.mp hc with hc | hc
  · cases hp : l.plainZero <;> simp_all [writtenMark]
  · exact .inr (mem_fromAlternate h hc)

/-! ### The parts in their order -/

theorem takePrecision_fromPrecision (h : l.Writable x) :
    takePrecision l.fromPrecision = .ok (l.precision, l.letter.toList) := by
  refine takePrecision_append h.precision fun c hc => ?_
  have hletter := h.letter c (by simpa using hc)
  refine ⟨not_isDigit_of_isLetter hletter, ?_⟩
  rintro rfl
  exact absurd hletter (by decide)

theorem takeSeparator_fromSeparator (h : l.Writable x) :
    takeSeparator l.fromSeparator = .ok (l.separator, l.fromPrecision) := by
  refine takeSeparator_append _ fun c hc => separator?_eq_none ?_
  have hending := isEnding_of_mem h hc
  constructor <;> rintro rfl <;> exact absurd hending (by decide)

/-- Behind the width there is no further digit. -/
theorem not_isDigit_head?_fromSeparator (h : l.Writable x) :
    ∀ c ∈ l.fromSeparator.head?, ¬ Text.isDigit c := by
  intro c hc
  rw [fromSeparator, fromPrecision] at hc
  cases hs : l.separator with
  | some s =>
    obtain rfl : s.char = c := by simpa [hs] using hc
    cases s <;> decide
  | none =>
    cases hp : l.precision with
    | some n =>
      obtain rfl : '.' = c := by simpa [hs, hp, writtenPrecision] using hc
      decide
    | none =>
      apply not_isDigit_of_isLetter
      apply h.letter
      simpa [hs, hp, writtenPrecision] using hc

theorem takeCount_fromWidth (h : l.Writable x) :
    takeCount l.fromWidth = .ok (l.width, l.fromSeparator) :=
  takeCount_append h.width (not_isDigit_head?_fromSeparator h)

/-- A width does not begin like the mark for zeros. -/
theorem head?_fromWidth_ne (h : l.Writable x) (hw : l.width ≠ some 0) :
    l.fromWidth.head? ≠ some '0' := by
  rw [fromWidth]
  cases hn : l.width with
  | none =>
    intro hc
    exact not_isDigit_head?_fromSeparator h '0' hc (by decide)
  | some n =>
    rw [writtenCount, Option.elim_some, List.head?_append_of_ne_nil _ (Text.ofNat_ne_nil n)]
    exact Text.head?_ofNat_ne fun hzero => hw (by rw [hn, hzero])

/-- Zeros are looked for only where no filling is given. -/
theorem takeMark_fromZeros (h : l.Writable x) :
    (if l.fill.isNone then takeMark '0' l.fromZeros else (false, l.fromZeros)) =
      (l.zeros, l.fromWidth) := by
  rw [fromZeros]
  split
  · rename_i hfill
    cases hz : l.zeros with
    | true => exact takeMark_cons _ _
    | false =>
      have hw := h.width_ne_zero (Option.isNone_iff_eq_none.mp hfill) hz
      exact takeMark_append false (head?_fromWidth_ne h hw)
  · rename_i hfill
    rw [h.zeros fun hnone => hfill (Option.isNone_iff_eq_none.mpr hnone)]
    rfl

theorem takeMark_fromAlternate (h : l.Writable x) :
    takeMark '#' l.fromAlternate = (l.alternate, l.fromZeros) := by
  refine takeMark_append _ fun hc => ?_
  exact absurd (isSize_of_mem h (List.mem_of_mem_head? hc)) (by decide)

theorem takeMark_fromPlainZero (h : l.Writable x) :
    takeMark 'z' l.fromPlainZero = (l.plainZero, l.fromAlternate) := by
  refine takeMark_append _ fun hc => ?_
  exact absurd (mem_fromAlternate h (List.mem_of_mem_head? hc)) (by decide)

theorem takeOne_fromSign (h : l.Writable x) :
    takeOne sign? l.fromSign = (l.sign, l.fromPlainZero) := by
  refine takeOne_append (fun s => by cases s <;> rfl) l.sign fun c hc => sign?_eq_none ?_
  have hinner := mem_fromPlainZero h hc
  refine ⟨?_, ?_, ?_⟩ <;> rintro rfl <;> exact absurd hinner (by decide)

theorem takeAlignment_written (h : l.Writable x) :
    takeAlignment l.written = (l.fill, l.alignment, l.fromSign) := by
  refine takeAlignment_append h.fill fun c hc => alignment?_eq_none ?_
  have hinner : c = '-' ∨ c = '+' ∨ c = ' ' ∨ c = 'z' ∨ c = '#' ∨ isSize c := by
    rcases List.mem_append.mp hc with hc | hc
    · cases hs : l.sign with
      | none => simp [hs] at hc
      | some s => cases s <;> simp_all [SignRule.char]
    · simp [mem_fromPlainZero h hc]
  refine ⟨?_, ?_, ?_, ?_⟩ <;> rintro rfl <;> exact absurd hinner (by decide)

/-- The letter that is written is the one that is read. -/
theorem letter_eq (h : l.Writable x) :
    (l.letter.toList.head?.or x.letter?).filter (fun c => x ≠ .number ∨ c ≠ '\x00') = l.letter := by
  cases hl : l.letter with
  | none => simp [h.no_letter hl]
  | some c =>
    have hc : c ≠ '\x00' := by
      rintro rfl
      exact absurd (h.letter _ hl) (by decide)
    simp [hc]

/-- A written layout is read as it is. -/
theorem parse_written (h : l.Writable x) : parse x l.written = .ok l := by
  have hlength : ¬ 1 < l.letter.toList.length := by cases l.letter <;> simp
  simp only [parse, takeAlignment_written h, takeOne_fromSign h, takeMark_fromPlainZero h,
    takeMark_fromAlternate h, takeMark_fromZeros h, takeCount_fromWidth h,
    takeSeparator_fromSeparator h, takePrecision_fromPrecision h,
    bind, Except.bind, pure, Except.pure, if_neg hlength, letter_eq h]
  split
  · rename_i sep c hsep _
    rw [if_neg (not_not.mpr (h.separator sep hsep))]
  · rfl

end Layout
end KineticText
