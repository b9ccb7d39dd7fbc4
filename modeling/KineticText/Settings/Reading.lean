import KineticText.Number.Decimal
import KineticText.Settings.Fields

/-! Reading values for settings: what stands for a number, an integer and a truth value, and which
of the given values and variables a field has. -/
namespace KineticText.Settings

/-! ### Numbers -/

/-- The names of the numbers that are not finite. -/
def nonFinite? (s : Text) : Option Float :=
  let (negative, word) := Decimal.takeSign (lowered s)
  if word = "inf".toList ∨ word = "infinity".toList then
    some (Binary64.ofMagnitude negative Binary64.infinityBits)
  else if word = "nan".toList then some (Binary64.ofMagnitude negative (Binary64.infinityBits + 1))
  else none

/-- A decimal number in ASCII, or a name. -/
def number? (s : Text) : Option Float :=
  let decimal := if s.all Text.isAscii then (Decimal.parse? s).map Decimal.toFloat else none
  decimal.or (nonFinite? s)

/-- A text without the underscores that stand singly between other characters. -/
def ungrouped? (s : Text) : Option Text :=
  let parts := s.splitOn '_'
  if parts.contains [] then none else some parts.flatten

/-- A text is a number between white space, or with underscores in it. -/
def readNumber : Value → Except Complaint Float
  | .number x => .ok x
  | .integer n =>
    if Binary64.nearest n.natAbs 1 < Binary64.infinityBits then .ok (Binary64.ofInt n)
    else .error .notNumber
  | .bool b => .ok (if b then 1 else 0)
  | .text s =>
    match (number? (s.trimBy Text.isSpace)).or ((ungrouped? s).bind number?) with
    | some x => .ok x
    | none => .error .notNumberText
  | .null | .list _ | .record _ => .error .notNumber

/-! ### Truth values -/

/-- The words for true and false, in any letter case. -/
def boolWords : List (Text × Bool) :=
  ["1", "t", "true", "y", "yes", "on"].map (·.toList, true) ++
    ["0", "f", "false", "n", "no", "off"].map (·.toList, false)

/-- The bound of the magnitude of machine integers. -/
def machineBound : Nat := 0x8000000000000000

/-- Machine integers stand for truth values, if they are 1 or 0. -/
def boolOf (n : Int) : Except Complaint Bool :=
  if n < -machineBound ∨ machineBound ≤ n then .error .notBool
  else if n = 0 then .ok false
  else if n = 1 then .ok true
  else .error .notBoolValue

/-- The machine integer that a number is. The least one is not taken. -/
def machineInteger? (x : Float) : Option Int :=
  (Binary64.toInt? x).filter (·.natAbs < machineBound)

def readBool : Value → Except Complaint Bool
  | .bool b => .ok b
  | .integer n => boolOf n
  | .number x => (machineInteger? x).elim (.error .notBool) boolOf
  | .text s => ((boolWords.lookup (lowered s)).map .ok).getD (.error .notBoolValue)
  | .null | .list _ | .record _ => .error .notBool

/-! ### Integers -/

/-- The most digits of an integer in a text, its minus sign included. -/
def maxDigits : Nat := 4300

/-- A text without a fraction of zeros, of which there is one at least. -/
def withoutFraction (s : Text) : Text :=
  match s.dropWhile (· ≠ '.') with
  | '.' :: '0' :: zeros => if zeros.all (· = '0') then s.takeWhile (· ≠ '.') else s
  | _ => s

/-- A text without the zeros in front and the underscores among these. The last of them stays at
the end of the text and before a point. -/
def withoutZeros (s : Text) : Text :=
  let run := if s.head? = some '0' then s.takeWhile fun c => c = '0' ∨ c = '_' else []
  match s.drop run.length with
  | [] | '.' :: _ => s.drop (run.length - 1)
  | rest => rest

/-- An integer in ASCII digits with an optional minus sign. Its digits start with no zero but a
lone one. -/
def plainInteger (s : Text) : Except Complaint Int :=
  let (negative, digits) := if s.head? = some '-' then (true, s.drop 1) else (false, s)
  if digits.head? = some '0' ∧ digits ≠ ['0'] then .error .notIntegerText
  else if maxDigits < (digits.takeWhile Char.isDigit).length + (if negative then 1 else 0) then
    .error .integerTooLarge
  else if digits ≠ [] ∧ digits.all Char.isDigit then
    .ok (if negative then -(Text.digitsValue digits : Int) else Text.digitsValue digits)
  else .error .notIntegerText

/-- An integer between white space. A plus sign, zeros in front, a fraction of zeros, and single
underscores make no difference. The zeros may also stand before the minus sign, but no minus sign
follows a plus sign. -/
def integerOfText (s : Text) : Except Complaint Int :=
  let s := s.trimBy Text.isSpace
  let (negative, rest) := Decimal.takeSign s
  let rest := withoutFraction (withoutZeros rest)
  let digits := (ungrouped? rest).getD rest
  if ['+', '-'].isPrefixOf s then .error .notIntegerText
  else plainInteger (if negative then '-' :: digits else digits)

def readInteger : Value → Except Complaint Int
  | .integer n => .ok n
  | .bool b => .ok (if b then 1 else 0)
  | .number x =>
    if ¬ x.isFinite then .error .notFinite
    else if Binary64.toInt? x = none then .error .fraction
    else (machineInteger? x).elim (.error .integerTooLarge) .ok
  | .text s => integerOfText s
  | .null | .list _ | .record _ => .error .notInteger

/-! ### Names -/

namespace Given

variable (g : Given)

/-- Names of variables start with this, in any letter case. -/
def environmentStart : Text := "textmotion_".toList

/-- The value of a field: the first one under its name in any letter case, else its last
variable. -/
def value? (field : Text) : Option Value :=
  ((g.values.find? (lowered ·.1 = field)).map (·.2)).or <|
    (g.environment.reverse.find? (lowered ·.1 = environmentStart ++ field)).map (.text ·.2)

/-- The given names that are no names of settings. -/
def others : List Text := (g.values.map (·.1)).filter fun name => ! fields.contains (lowered name)

end Given

/-- Reads values as documented for the library in use. -/
def library : Reader := ⟨readNumber, readInteger, readBool, Given.value?, Given.others⟩

/-- The settings of the given values and variables. -/
def Given.settings (g : Given) : Except Given.Refusal Settings := library.settings g

end KineticText.Settings
