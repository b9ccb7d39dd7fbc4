import KineticText.Number.Shortest

/-! Writing finite binary64 magnitudes in decimal: with a number of places, with a number of
digits, or in full. -/
namespace KineticText

/-- How a magnitude is written: the digits before the point, and all that follows them. -/
structure Numeral where
  whole : Text
  rest : Text := []
  deriving DecidableEq

namespace Numeral

/-- Whether a numeral keeps a point that nothing follows, and zeros at its end. -/
structure Style where
  /-- Keep the point, and the zeros at the end of a numeral that would drop them. -/
  full : Bool := false
  /-- Write a whole number with a zero after the point, unless it has an exponent. -/
  pointZero : Bool := false
  deriving DecidableEq

/-- A number in `n` digits at least. -/
def digits (n k : Nat) : Text :=
  let ds := Text.ofNat k
  List.replicate (n - ds.length) '0' ++ ds

/-- The point and the digits after it. -/
def fraction (style : Style) (ds : Text) : Text :=
  if ds = [] ∧ ¬ style.full then [] else '.' :: ds

/-- An exponent has a sign and two digits at least. -/
def exponent (e : Int) : Text := 'e' :: (if e < 0 then '-' else '+') :: digits 2 e.natAbs

/-- The nearest number with `places` digits after the point. -/
def fixed (style : Style) (places bits : Nat) : Numeral :=
  let ds := digits (places + 1) (Binary64.roundTo bits (-places))
  let cut := ds.length - places
  ⟨ds.take cut, fraction style (ds.drop cut)⟩

/-- The nearest number with `n` significant digits: its digits, and the power of ten of the first
one. A number that rounds up to the next power of ten gets a digit more, which is a zero. -/
def significant (n bits : Nat) : Text × Int :=
  if bits = 0 then (List.replicate n '0', 0)
  else
    let first := Binary64.leading bits
    let ds := Text.ofNat (Binary64.roundTo bits (first - n + 1))
    (ds.take n, first + (ds.length - n : Nat))

/-- Digits without the zeros at their end. -/
def stripped (ds : Text) : Text :=
  ds.take 1 ++ ((ds.drop 1).reverse.dropWhile (· = '0')).reverse

/-- The digits of the shortest decimal that reads back, and the power of ten of the first one. -/
def shortestDigits (bits : Nat) : Text × Int :=
  if bits = 0 then (['0'], 0)
  else
    let d := Binary64.shortest bits
    let ds := Text.ofNat d.coefficient
    (stripped ds, d.exponent + ds.length - 1)

/-- Digits with the point after the first of them, and an exponent. -/
def withExponent (style : Style) (ds : Text) (e : Int) : Numeral :=
  ⟨ds.take 1, fraction style (ds.drop 1) ++ exponent e⟩

/-- Digits with the point in its place, and zeros up to it. -/
def positional (style : Style) (ds : Text) (e : Int) : Numeral :=
  let tail := if e < 0 then List.replicate (-e - 1).toNat '0' ++ ds else ds.drop (e.toNat + 1)
  ⟨if e < 0 then ['0'] else ds.take (e.toNat + 1) ++ List.replicate (e.toNat + 1 - ds.length) '0',
    fraction style (if tail = [] ∧ style.pointZero then ['0'] else tail)⟩

/-- Powers of ten from `10 ^ limit` on are written with an exponent, and those below
`10 ^ (-4)`. -/
def balanced (style : Style) (limit : Int) (ds : Text) (e : Int) : Numeral :=
  if -4 ≤ e ∧ e < limit then positional style ds e else withExponent style ds e

/-- The nearest number with `places` digits after the point, and an exponent. -/
def scientific (style : Style) (places bits : Nat) : Numeral :=
  let (ds, e) := significant (places + 1) bits
  withExponent style ds e

/-- The nearest number with `n` significant digits (one at least), without zeros at the end unless
the style keeps them. A zero after the point takes up one of the digits. -/
def general (style : Style) (n bits : Nat) : Numeral :=
  let n := max n 1
  let (ds, e) := significant n bits
  balanced style (if style.pointZero then n - 1 else n) (if style.full then ds else stripped ds) e

/-- The shortest number that reads back. -/
def shortest (style : Style) (bits : Nat) : Numeral :=
  let (ds, e) := shortestDigits bits
  balanced style 16 ds e

/-- What stands for a magnitude that is not finite. -/
def nonFinite (x : Float) : Numeral := ⟨[], (if x.isNaN then "nan" else "inf").toList⟩

/-- Whether only zeros are written. -/
def isZero (n : Numeral) : Bool :=
  n.whole ≠ [] ∧ (n.whole ++ n.rest).all fun c => ! c.isDigit || c = '0'

end Numeral
end KineticText
