import KineticText.Text.Printable

/-! Text between quotes. -/
namespace KineticText.Text

/-- A number in hexadecimal, in `width` digits at least. -/
def hex (width n : Nat) : Text :=
  let digits := Nat.toDigits 16 n
  List.replicate (width - digits.length) '0' ++ digits

/-- A character that does not stand for itself: by its letter, or by its code in the fewest of
two, four or eight digits. -/
def escaped (c : Char) : Text :=
  if c = '\t' then ['\\', 't']
  else if c = '\n' then ['\\', 'n']
  else if c = '\r' then ['\\', 'r']
  else if c.toNat < 0x100 then '\\' :: 'x' :: hex 2 c.toNat
  else if c.toNat < 0x10000 then '\\' :: 'u' :: hex 4 c.toNat
  else '\\' :: 'U' :: hex 8 c.toNat

/-- The quote around a text: a single one, unless the text has single quotes and no double
ones. -/
def quoteFor (s : Text) : Char :=
  if s.contains '\x27' && ! s.contains '\x22' then '\x22' else '\x27'

/-- A text between quotes. The quote and the backslash stand after a backslash, and characters
that `plain` does not hold of are escaped. -/
def quotedBy (plain : Char → Bool) (s : Text) : Text :=
  let quote := quoteFor s
  let inside := s.flatMap fun c =>
    if c = quote ∨ c = '\\' then ['\\', c] else if plain c then [c] else escaped c
  quote :: inside ++ [quote]

/-- Quotes a text and keeps what is printable. -/
def quoted (s : Text) : Text := quotedBy isPrintable s

end KineticText.Text
