import KineticText.Text.Digit
import KineticText.Text.Quoted

/-! Layouts: how a value is arranged in a message. -/
namespace KineticText

/-- Where a value stands in a field that is wider. -/
inductive Alignment where
  | left
  | right
  | center
  /-- The filling stands between the sign and the digits. -/
  | afterSign
  deriving DecidableEq

/-- What stands before a number that is not negative. -/
inductive SignRule where
  | nothing
  | plus
  | blank
  deriving DecidableEq

/-- What stands between groups of digits. -/
inductive Separator where
  | comma
  | underscore
  deriving DecidableEq

def Separator.char : Separator → Char
  | comma => ','
  | underscore => '_'

/-- What a layout says, in the order in which it says it. -/
structure Layout where
  fill : Option Char := none
  alignment : Option Alignment := none
  sign : Option SignRule := none
  /-- Zero has no minus sign. -/
  plainZero : Bool := false
  /-- The longer form of a number. -/
  alternate : Bool := false
  /-- Fill with zeros, where no other filling is given. -/
  zeros : Bool := false
  width : Option Nat := none
  separator : Option Separator := none
  precision : Option Nat := none
  /-- The letter of the notation. -/
  letter : Option Char := none
  deriving DecidableEq

namespace Layout

/-- The types of values that layouts arrange. -/
inductive Subject where
  | text
  | integer
  | bool
  | number
  deriving DecidableEq

def Subject.name : Subject → Text
  | text => "str".toList
  | integer => "int".toList
  | bool => "bool".toList
  | number => "float".toList

/-- The letter of the notation that a type has without one. -/
def Subject.letter? : Subject → Option Char
  | text => some 's'
  | integer | bool => some 'd'
  | number => none

/-- Why a value is not arranged. -/
inductive Error where
  /-- A number too large for a count of characters. -/
  | tooManyDigits
  | bothSeparators
  | separatorWith (s : Separator) (letter : Char)
  | missingPrecision
  /-- More than a letter after the parts of a layout. -/
  | malformed (layout : Text) (x : Subject)
  | unknownLetter (letter : Char) (x : Subject)
  | signOnText
  | blankOnText
  | plainZeroOnText
  | alternateOnText
  | alignmentOnText
  | precisionOnInteger
  | plainZeroOnInteger
  | signOnCharacter
  | alternateOnCharacter
  | precisionTooBig
  /-- An integer that is no character's number. -/
  | noCharacter
  /-- An integer past the numbers that have a fraction. -/
  | noNumber
  /-- A value that has no layouts. -/
  | notArranged
  deriving DecidableEq

/-- A character in a message about it: by itself between the blank and `bound`, else by its
number. -/
def named (bound : Nat) (c : Char) : Text :=
  if 32 < c.toNat ∧ c.toNat < bound then [c] else '\\' :: 'x' :: Text.hex 1 c.toNat

/-- A letter of a notation in a message. -/
def letterName (c : Char) : Text := named 128 c

/-- What is said of an error; some speak for themselves. -/
def Error.message? : Error → Option Text
  | tooManyDigits => some "Too many decimal digits in format string".toList
  | bothSeparators => some "Cannot specify both ',' and '_'.".toList
  | separatorWith s letter =>
    some ("Cannot specify '".toList ++ s.char :: "' with '".toList ++ letterName letter ++
      "'.".toList)
  | missingPrecision => some "Format specifier missing precision".toList
  | malformed layout x => some ("Invalid format specifier '".toList ++ layout ++
      "' for object of type '".toList ++ x.name ++ "'".toList)
  | unknownLetter letter x => some ("Unknown format code '".toList ++ letterName letter ++
      "' for object of type '".toList ++ x.name ++ "'".toList)
  | signOnText => some "Sign not allowed in string format specifier".toList
  | blankOnText => some "Space not allowed in string format specifier".toList
  | plainZeroOnText =>
    some "Negative zero coercion (z) not allowed in string format specifier".toList
  | alternateOnText =>
    some "Alternate form (#) not allowed in string format specifier".toList
  | alignmentOnText => some "'=' alignment not allowed in string format specifier".toList
  | precisionOnInteger => some "Precision not allowed in integer format specifier".toList
  | plainZeroOnInteger =>
    some "Negative zero coercion (z) not allowed in integer format specifier".toList
  | signOnCharacter => some "Sign not allowed with integer format specifier 'c'".toList
  | alternateOnCharacter =>
    some "Alternate form (#) not allowed with integer format specifier 'c'".toList
  | precisionTooBig => some "precision too big".toList
  | noCharacter | noNumber | notArranged => none

/-! ### Reading a layout -/

def alignment? : Char → Option Alignment
  | '<' => some .left
  | '>' => some .right
  | '^' => some .center
  | '=' => some .afterSign
  | _ => none

def sign? : Char → Option SignRule
  | '-' => some .nothing
  | '+' => some .plus
  | ' ' => some .blank
  | _ => none

def separator? : Char → Option Separator
  | ',' => some .comma
  | '_' => some .underscore
  | _ => none

/-- The first character, if `read` knows it, and what follows it. -/
def takeOne {α : Type} (read : Char → Option α) : Text → Option α × Text
  | [] => (none, [])
  | c :: s =>
    match read c with
    | some a => (some a, s)
    | none => (none, c :: s)

/-- Whether `c` comes first, and what follows it. -/
def takeMark (c : Char) (s : Text) : Bool × Text :=
  if s.head? = some c then (true, s.drop 1) else (false, s)

/-- An alignment, with the filling before it if there are both: `<` and `=` are fillings too. -/
def takeAlignment (s : Text) : Option Char × Option Alignment × Text :=
  match takeOne alignment? (s.drop 1) with
  | (some a, rest) => (s.head?, some a, rest)
  | (none, _) => let (a, rest) := takeOne alignment? s; (none, a, rest)

/-- A count in decimal digits, if there are any. -/
def takeCount (s : Text) : Except Error (Option Nat × Text) :=
  let digits := s.takeWhile Text.isDigit
  let n := Text.digitsValue digits
  if digits = [] then .ok (none, s)
  else if Text.countBound ≤ n then .error .tooManyDigits
  else .ok (some n, s.drop digits.length)

/-- A separator, which stands alone. -/
def takeSeparator (s : Text) : Except Error (Option Separator × Text) :=
  match takeOne separator? s with
  | (some .comma, '_' :: _) | (some .underscore, ',' :: _) => .error .bothSeparators
  | found => .ok found

/-- A precision after a point. -/
def takePrecision (s : Text) : Except Error (Option Nat × Text) :=
  match takeMark '.' s with
  | (false, s) => .ok (none, s)
  | (true, s) => do
    let (n, s) ← takeCount s
    if n.isNone then throw .missingPrecision
    return (n, s)

/-- The letters of notations that write a number in the digits of another base. -/
def isBaseLetter (c : Char) : Bool := ['b', 'o', 'x', 'X'].contains c

/-- Whether a separator goes with the letter of a notation: only the underscore does with
another base. -/
def allows (letter : Option Char) (s : Separator) : Bool :=
  match letter with
  | none => true
  | some c => ['d', 'e', 'f', 'g', 'E', 'G', '%', 'F', '\x00'].contains c ||
      (isBaseLetter c && s = .underscore)

/-- Reads a layout for a type of values. The null character is no letter for a number. -/
def parse (x : Subject) (source : Text) : Except Error Layout := do
  let (fill, alignment, s) := takeAlignment source
  let (sign, s) := takeOne sign? s
  let (plainZero, s) := takeMark 'z' s
  let (alternate, s) := takeMark '#' s
  let (zeros, s) := if fill.isNone then takeMark '0' s else (false, s)
  let (width, s) ← takeCount s
  let (separator, s) ← takeSeparator s
  let (precision, s) ← takePrecision s
  if 1 < s.length then throw (.malformed source x)
  let letter := (s.head?.or x.letter?).filter fun c => x ≠ .number ∨ c ≠ '\x00'
  match separator, letter with
  | some sep, some c => if ¬ allows letter sep then throw (.separatorWith sep c)
  | _, _ => pure ()
  return { fill, alignment, sign, plainZero, alternate, zeros, width, separator, precision, letter }

end Layout
end KineticText
