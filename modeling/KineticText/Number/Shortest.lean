import KineticText.Number.Decimal

/-! Decimals for binary64 magnitudes: the nearest one on a decimal grid, and the shortest one. -/
namespace KineticText.Binary64

/-- A finite magnitude in units of `10 ^ k`, as a quotient. -/
def quotient (bits : Nat) (k : Int) : Nat × Nat :=
  let (m, e) := scaled bits
  ((m <<< e.toNat) * Nat.pow 10 (-k).toNat, (1 <<< (-e).toNat) * Nat.pow 10 k.toNat)

/-- The multiple of `10 ^ k` nearest to a finite magnitude, ties to even. -/
def roundTo (bits : Nat) (k : Int) : Nat :=
  let (num, den) := quotient bits k
  roundDiv num den

/-- The power of ten of the leading digit of a magnitude that is not zero. The lengths of the
numerator and the denominator fix it up to one. -/
def leading (bits : Nat) : Int :=
  let (num, den) := quotient bits 0
  let guess : Int := (Text.ofNat num).length - (Text.ofNat den).length
  let (num, den) := quotient bits guess
  if num < den then guess - 1 else guess

/-- The decimal on the grid of `10 ^ k` that reads back as the magnitude, if there is one. If
there are some, a neighbour of the magnitude is among them, and the nearer one is taken. -/
def readingBack? (bits : Nat) (k : Int) : Option Nat :=
  let (num, den) := quotient bits k
  let below := num / den
  let reads (c : Nat) : Bool := Decimal.magnitude ⟨false, c, k⟩ = bits
  match reads below, reads (below + 1) with
  | true, true => some (roundDiv num den)
  | true, false => some below
  | false, true => some (below + 1)
  | false, false => none

/-- The decimal with the fewest digits that reads back, from the coarsest grid on. Seventeen
digits identify every magnitude. -/
def shortest (bits : Nat) : Decimal :=
  let first := leading bits
  let grids := (List.range 17).map fun (i : Nat) => first - i
  match grids.findSome? fun k => (readingBack? bits k).map (Decimal.mk false · k) with
  | some d => d
  | none => ⟨false, roundTo bits (first - 16), first - 16⟩

end KineticText.Binary64
