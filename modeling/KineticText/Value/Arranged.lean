import KineticText.Value.Layout
import KineticText.Value.Literal

/-! Values arranged by layouts. -/
namespace KineticText.Layout

variable (l : Layout)

def minWidth : Nat := l.width.getD 0

/-- What fills the field. -/
def filling : Char := l.fill.getD (if l.zeros then '0' else ' ')

/-- The filling for a text or numeral of some length. -/
def padding (length : Nat) : Text := List.replicate (l.minWidth - length) l.filling

/-- Puts filling on the sides of a field. -/
def aligned (a : Alignment) (sign body : Text) : Text :=
  let pad := l.padding (sign.length + body.length)
  match a with
  | .left => sign ++ body ++ pad
  | .right => pad ++ sign ++ body
  | .center => pad.take (pad.length / 2) ++ sign ++ body ++ pad.drop (pad.length / 2)
  | .afterSign => sign ++ pad ++ body

/-! ### Texts -/

/-- What a layout of texts may not say. -/
def textFault? : Option Error :=
  match l.sign with
  | some .blank => some .blankOnText
  | some _ => some .signOnText
  | none =>
    if l.plainZero then some .plainZeroOnText
    else if l.alternate then some .alternateOnText
    else if l.alignment = some .afterSign then some .alignmentOnText
    else none

/-- A text stands on the left, cut to the precision. -/
def arrangeText (s : Text) : Except Error Text :=
  match l.letter, l.textFault? with
  | some 's', some e => .error e
  | some 's', none =>
    .ok (l.aligned (l.alignment.getD .left) [] (l.precision.elim s fun n => s.take n))
  | letter, _ => .error (.unknownLetter (letter.getD 's') .text)

/-! ### Numbers -/

/-- The sign of a number. -/
def signOf (negative : Bool) : Text :=
  if negative then ['-']
  else
    match l.sign with
    | some .plus => ['+']
    | some .blank => [' ']
    | _ => []

/-- Groups of digits are longer in the bases that are powers of two. -/
def groupSize : Nat := if l.letter.any isBaseLetter then 4 else 3

/-- Puts a separator before every `size` digits, counted from the right, but not in front. -/
def grouped (size : Nat) (separator : Char) (ds : Text) : Text :=
  (ds.reverse.zipIdx.flatMap fun (c, i) =>
    if 0 < i ∧ i % size = 0 then [separator, c] else [c]).reverse

/-- The least number of digits that take up `width` places together with the separators of
their groups, which do not come first. -/
def digitsFor (size width : Nat) : Nat :=
  width - width / (size + 1) + (if width % (size + 1) = 0 then 1 else 0)

/-- The digits before the point, with zeros and separators, in `width` places at least. -/
def wholePart (width : Nat) (ds : Text) : Text :=
  let needed := if l.separator.isSome then digitsFor l.groupSize width else width
  let ds := List.replicate (needed - ds.length) '0' ++ ds
  match l.separator with
  | some s => grouped l.groupSize s.char ds
  | none => ds

/-- A numeral stands on the right. Zeros after the sign count as digits. `mark` is the mark of a
base, which stands with the sign. -/
def arrangeNumeral (negative : Bool) (mark : Text) (n : Numeral) : Text :=
  let sign := l.signOf negative ++ mark
  let alignment := l.alignment.getD (if l.zeros then .afterSign else .right)
  let width := if l.filling = '0' ∧ alignment = .afterSign
    then l.minWidth - sign.length - n.rest.length else 0
  let whole := if n.whole = [] then [] else l.wholePart width n.whole
  l.aligned alignment sign (whole ++ n.rest)

/-! ### Numbers with a fraction -/

/-- The digits of a number after the point, or in all. -/
def precisionOr (n : Nat) : Nat := l.precision.getD n

/-- A number's magnitude in the notation of the layout's letter. -/
def numeral (x : Float) : Numeral :=
  let bits := Binary64.magnitudeBits x
  let style : Numeral.Style := { full := l.alternate, pointZero := l.letter = none }
  if ¬ x.isFinite then Numeral.nonFinite x
  else
    match l.letter.map Char.toLower, l.precision with
    | none, none => Numeral.shortest style bits
    | some 'e', _ => Numeral.scientific style (l.precisionOr 6) bits
    | some 'f', _ | some '%', _ => Numeral.fixed style (l.precisionOr 6) bits
    | _, _ => Numeral.general style (l.precisionOr 6) bits

/-- The bound of the precision of numbers. -/
def precisionBound : Nat := 0x7FFFFFFF

/-- The letters of the notations with a fraction. -/
def isFractionLetter (c : Char) : Bool :=
  ['e', 'E', 'f', 'F', 'g', 'G', '%'].contains c

/-- A numeral with a percent sign, if the letter is one, and in capitals for a capital letter. -/
def finished (n : Numeral) : Numeral where
  whole := n.whole
  rest :=
    let rest := if l.letter = some '%' then n.rest ++ ['%'] else n.rest
    if l.letter.any Char.isUpper then rest.map Char.toUpper else rest

/-- A number, or its hundredfold with a percent sign. -/
def arrangeFinished (x : Float) : Text :=
  let n := l.numeral (if l.letter = some '%' then x * 100 else x)
  let negative := Binary64.isNegative x ∧ ¬ x.isNaN ∧ ¬ (l.plainZero ∧ n.isZero)
  l.arrangeNumeral negative [] (l.finished n)

def arrangeNumber (x : Float) : Except Error Text :=
  match l.letter.filter fun c => ! isFractionLetter c && c ≠ 'n' with
  | some c => .error (.unknownLetter c .number)
  | none =>
    if precisionBound < l.precisionOr 0 then .error .precisionTooBig
    else .ok (l.arrangeFinished x)

/-! ### Integers -/

/-- The base of a letter, and its mark. -/
def base : Char → Nat × Text
  | 'b' => (2, "0b".toList)
  | 'o' => (8, "0o".toList)
  | 'x' => (16, "0x".toList)
  | 'X' => (16, "0X".toList)
  | _ => (10, [])

/-- An integer in the base of a letter. -/
def arrangeDigits (letter : Char) (n : Int) : Text :=
  let (b, mark) := base letter
  let ds := Nat.toDigits b n.natAbs
  l.arrangeNumeral (n < 0) (if l.alternate then mark else [])
    ⟨if letter = 'X' then ds.map Char.toUpper else ds, []⟩

/-- The character of a number, which has no sign. -/
def arrangeCharacter (n : Int) : Except Error Text :=
  if l.sign.isSome then .error .signOnCharacter
  else if l.alternate then .error .alternateOnCharacter
  else if n < 0 ∨ 0x110000 ≤ n then .error .noCharacter
  else .ok (l.arrangeNumeral false [] ⟨[], [Char.ofNat n.toNat]⟩)

/-- An integer; a letter with a fraction makes it a number first. -/
def arrangeInteger (x : Subject) (n : Int) : Except Error Text :=
  let letter := l.letter.getD 'd'
  if isFractionLetter letter then
    if Binary64.nearest n.natAbs 1 < Binary64.infinityBits then
      l.arrangeNumber (Binary64.ofInt n)
    else .error .noNumber
  else if ! isBaseLetter letter && ! ['d', 'n', 'c'].contains letter then
    .error (.unknownLetter letter x)
  else if l.precision.isSome then .error .precisionOnInteger
  else if l.plainZero then .error .plainZeroOnInteger
  else if letter = 'c' then l.arrangeCharacter n
  else .ok (l.arrangeDigits letter n)

end Layout

/-- A value in a message, arranged by the text of a layout. The empty layout arranges nothing, and
any other takes a truth value for 1 or 0. -/
def Value.arranged (layout : Text) (v : Value) : Except Layout.Error Text :=
  match layout, v with
  | [], v => .ok v.shown
  | layout, .text s => do (← Layout.parse .text layout).arrangeText s
  | layout, .integer n => do (← Layout.parse .integer layout).arrangeInteger .integer n
  | layout, .bool b => do
    (← Layout.parse .bool layout).arrangeInteger .bool (if b then 1 else 0)
  | layout, .number x => do (← Layout.parse .number layout).arrangeNumber x
  | _, .null | _, .list _ | _, .record _ => .error .notArranged

end KineticText
