/-! Rounding of exact quotients to binary64 numbers. -/
namespace KineticText.Binary64

/-- The integer nearest to `num / den`, a half going to the even neighbour. -/
def roundDiv (num den : Nat) : Nat :=
  let q := num / den
  let r := 2 * (num % den)
  if r < den ∨ (r = den ∧ q % 2 = 0) then q else q + 1

/-- The place of the exponent field, above the stored part of the significand. -/
def exponentUnit : Nat := 0x10000000000000

/-- The bit pattern of infinity: those below it are the finite magnitudes, in order. -/
def infinityBits : Nat := 0x7FF0000000000000

def signBit : Nat := 0x8000000000000000

/-- The exponent of the binade that holds `num / den`; below the least normal number, that
number's exponent. -/
def exponent (num den : Nat) : Int :=
  let e : Int := num.log2 - den.log2
  max (-1022) (if num <<< (-e).toNat < den <<< e.toNat then e - 1 else e)

/-- The bit pattern of the binary64 magnitude nearest to `num / den`, ties to even. The rounded
significand carries into the exponent field by addition, so a significand that rounds up to the
next power of two lands on the next binade, and past the last binade on infinity. -/
def nearest (num den : Nat) : Nat :=
  if num = 0 then 0 else
    let e := exponent num den
    let shift := e - 52
    let significand := roundDiv (num <<< (-shift).toNat) (den <<< shift.toNat)
    min infinityBits ((e + 1022).toNat * exponentUnit + significand)

/-- The number with the given sign and magnitude pattern. -/
def ofMagnitude (negative : Bool) (bits : Nat) : Float :=
  Float.ofBits (UInt64.ofNat (if negative then signBit + bits else bits))

/-- Integers round as quotients do; those past the range become infinite. -/
def ofInt (n : Int) : Float := ofMagnitude (n < 0) (nearest n.natAbs 1)

/-- The bit pattern of the magnitude. -/
def magnitudeBits (x : Float) : Nat := x.toBits.toNat % signBit

def isNegative (x : Float) : Bool := signBit ≤ x.toBits.toNat

/-- The significand and the binary exponent of a finite magnitude. -/
def scaled (bits : Nat) : Nat × Int :=
  if bits < exponentUnit then (bits, -1074)
  else (exponentUnit + bits % exponentUnit, bits / exponentUnit - 1075)

/-- The integer that a number is, if it is one. -/
def toInt? (x : Float) : Option Int :=
  let (m, e) := scaled (magnitudeBits x)
  let unit := 1 <<< (-e).toNat
  let signed (n : Nat) : Int := if isNegative x then -n else n
  if infinityBits ≤ magnitudeBits x then none
  else if m % unit = 0 then some (signed ((m / unit) <<< e.toNat)) else none

end KineticText.Binary64
