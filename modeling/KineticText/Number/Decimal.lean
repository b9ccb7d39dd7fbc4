import KineticText.Text.Digit
import KineticText.Number.Binary64

/-! Decimal numbers as parameters write them. -/
namespace KineticText

/-- The number `± coefficient * 10 ^ exponent`, with a sign also on zero. -/
structure Decimal where
  negative : Bool
  coefficient : Nat
  exponent : Int
  deriving DecidableEq

namespace Decimal

/-- An optional sign, and what follows it. -/
def takeSign : Text → Bool × Text
  | '+' :: s => (false, s)
  | '-' :: s => (true, s)
  | s => (false, s)

/-- An exponent part that ends the text; the empty text stands for exponent zero. -/
def exponent? : Text → Option Int
  | [] => some 0
  | c :: s =>
    let (negative, digits) := takeSign s
    if (c = 'e' ∨ c = 'E') ∧ digits ≠ [] ∧ digits.all Text.isDigit then
      some (if negative then -(Text.digitsValue digits : Int) else Text.digitsValue digits)
    else none

/-- Digits before and after the point (of which there is one at least), and the rest. -/
def significand? (s : Text) : Option (Text × Text × Text) :=
  let whole := s.takeWhile Text.isDigit
  match s.dropWhile Text.isDigit with
  | '.' :: rest =>
    let fraction := rest.takeWhile Text.isDigit
    if whole = [] ∧ fraction = [] then none
    else some (whole, fraction, rest.dropWhile Text.isDigit)
  | rest => if whole = [] then none else some (whole, [], rest)

/-- Reads a whole text: sign, digits with at most one point, exponent. -/
def parse? (s : Text) : Option Decimal := do
  let (negative, s) := takeSign s
  let (whole, fraction, s) ← significand? s
  let exponent ← exponent? s
  return ⟨negative, Text.digitsValue (whole ++ fraction), exponent - fraction.length⟩

/-- The bit pattern of the nearest binary64 magnitude. Decimals far outside the range are
recognised by their size, so that no huge power of ten is formed. -/
def magnitude (d : Decimal) : Nat :=
  if d.coefficient = 0 then 0
  else if 400 < d.exponent then Binary64.infinityBits
  else if d.exponent + (d.coefficient.log2 / 3 + 1 : Nat) < -400 then 0
  else Binary64.nearest (d.coefficient * Nat.pow 10 d.exponent.toNat)
    (Nat.pow 10 (-d.exponent).toNat)

def toFloat (d : Decimal) : Float := Binary64.ofMagnitude d.negative d.magnitude

end Decimal

/-- A parameter's value: a decimal number that rounds to a finite one. -/
def number? (s : Text) : Option Float := do
  let d ← Decimal.parse? s
  if d.magnitude < Binary64.infinityBits then some d.toFloat else none

end KineticText
