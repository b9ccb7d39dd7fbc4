/-! Markup text, its white space, and the decimal writing of whole numbers. -/
namespace KineticText

/-- Markup text. Every offset, length and width counts its characters. -/
abbrev Text := List Char

namespace Text

def isAscii (c : Char) : Bool := c.toNat < 128

/-- White space. -/
def isSpace (c : Char) : Bool :=
  let n := c.toNat
  (9 ≤ n && n ≤ 13) || n == 32 || n == 0x85 || n == 0xA0 || n == 0x1680 ||
    (0x2000 ≤ n && n ≤ 0x200A) || n == 0x2028 || n == 0x2029 || n == 0x202F ||
    n == 0x205F || n == 0x3000

/-- White space and the separators of ASCII, which are trimmed around keywords and parameters
and may stand inside the brackets of a custom tag. -/
def isBlank (c : Char) : Bool := isSpace c || (28 ≤ c.toNat && c.toNat ≤ 31)

/-- A text without the characters of a class at its start and its end. -/
def trimBy (p : Char → Bool) (s : Text) : Text :=
  ((s.dropWhile p).reverse.dropWhile p).reverse

def trim (s : Text) : Text := s.trimBy isBlank

/-- The position of the first character that is not white space, 0 if there is none. -/
def indent (s : Text) : Nat := if s.all isBlank then 0 else (s.takeWhile isBlank).length

def ofNat (n : Nat) : Text := Nat.toDigits 10 n

def ofInt : Int → Text
  | .ofNat n => ofNat n
  | .negSucc n => '-' :: ofNat (n + 1)

/-- The bound of counts and positions of characters, which fit a machine word. -/
def countBound : Nat := 0x8000000000000000

/-- Whether a number is a count of characters, or the negative of one. -/
def isCount (n : Int) : Bool := -countBound ≤ n ∧ n < countBound

end Text
end KineticText
