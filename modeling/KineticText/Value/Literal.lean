import KineticText.Number.Numeral
import KineticText.Text.Quoted
import KineticText.Value.Basic

/-! The text of a value. -/
namespace KineticText

/-- Numbers are written in the fewest digits that read back, and always look like ones. -/
def Binary64.literal (x : Float) : Text :=
  let n := if x.isFinite then Numeral.shortest { pointZero := true } (magnitudeBits x)
    else Numeral.nonFinite x
  (if isNegative x ∧ ¬ x.isNaN then ['-'] else []) ++ n.whole ++ n.rest

namespace Value

mutual

/-- The text of a value, with texts between quotes: `plain` tells which of their characters stand
for themselves. -/
def literalBy (plain : Char → Bool) : Value → Text
  | null => "None".toList
  | bool b => (if b then "True" else "False").toList
  | integer n => Text.ofInt n
  | number x => Binary64.literal x
  | text s => s.quotedBy plain
  | list vs => '[' :: literals plain vs ++ [']']
  | record fields => '\x7b' :: fieldLiterals plain fields ++ ['\x7d']

/-- The items of a list. -/
def literals (plain : Char → Bool) : List Value → Text
  | [] => []
  | [v] => literalBy plain v
  | v :: vs => literalBy plain v ++ ", ".toList ++ literals plain vs

/-- The fields of a record, names between quotes. -/
def fieldLiterals (plain : Char → Bool) : List (Text × Value) → Text
  | [] => []
  | [(name, v)] => name.quotedBy plain ++ ": ".toList ++ literalBy plain v
  | (name, v) :: fields =>
    name.quotedBy plain ++ ": ".toList ++ literalBy plain v ++ ", ".toList ++
      fieldLiterals plain fields

end

def literal (v : Value) : Text := v.literalBy Text.isPrintable

/-- The text of a value in ASCII. -/
def asciiLiteral (v : Value) : Text :=
  v.literalBy fun c => Text.isAscii c && Text.isPrintable c

/-- The text of a value, where a text stands without quotes. -/
def shown : Value → Text
  | text s => s
  | v => v.literal

end Value
end KineticText
