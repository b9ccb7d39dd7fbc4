import KineticText.Highlight.Lexeme
import KineticText.Text.Segments

/-! Highlighted markup for a terminal. -/
namespace KineticText.Highlight

/-- Line ends become newlines: a carriage return with the newline after it, then any other. -/
def unifyLines (s : Text) : Text :=
  (['\n'].intercalate (Text.segments ['\r', '\n'] s)).map fun c => if c = '\r' then '\n' else c

/-- Highlighting drops a byte order mark and the newlines at both ends, and ends the text with
one newline. -/
def normalize (s : Text) : Text :=
  let s := unifyLines (if s.head? = some '\uFEFF' then s.drop 1 else s)
  let s := s.dropWhile (· = '\n')
  (s.reverse.dropWhile (· = '\n')).reverse ++ ['\n']

/-- The background that the colours are chosen for. -/
inductive Background where
  | light
  | dark
  deriving DecidableEq

/-- The escape sequence that a class of lexemes is written in, if it is coloured. -/
def colour? (b : Background) : Lexeme.Kind → Option Text
  | .blank => some (pick "\x1b[37m" "\x1b[90m")
  | .keyword => some (pick "\x1b[32m" "\x1b[92m")
  | .number => some (pick "\x1b[34m" "\x1b[94m")
  | .native => some (pick "\x1b[36m" "\x1b[96m")
  | .stray => some "\x1b[04m\x1b[91m".toList
  | .punctuation | .text => none
where
  pick (light dark : String) : Text := (if b = .light then light else dark).toList

/-- Characters that end a line. -/
def endsLine (c : Char) : Bool :=
  let n := c.toNat
  (10 ≤ n && n ≤ 13) || (28 ≤ n && n ≤ 30) || n == 0x85 || n == 0x2028 || n == 0x2029

/-- The lines of a text, each with its end. -/
def linesFrom (line : Text) : Text → List Text
  | [] => if line = [] then [] else [line.reverse]
  | '\r' :: '\n' :: s => ('\n' :: '\r' :: line).reverse :: linesFrom [] s
  | c :: s =>
    if endsLine c then (c :: line).reverse :: linesFrom [] s else linesFrom (c :: line) s

def lines (s : Text) : List Text := linesFrom [] s

/-- A line in its colour; a newline that ends it stays outside. -/
def paintLine (colour : Option Text) (line : Text) : Text :=
  let ended := line.getLast? = some '\n'
  let body := if ended then line.dropLast else line
  (match colour with
    | some code => code ++ body ++ "\x1b[39;49;00m".toList
    | none => body) ++ if ended then ['\n'] else []

/-- Markup with its lexemes coloured. -/
def terminal (b : Background) (s : Text) : Text :=
  (Lexeme.lex (normalize s)).flatMap fun l =>
    (lines l.text).flatMap (paintLine (colour? b l.kind))

/-- Markup as highlighting reads it, without colours. -/
def plain (s : Text) : Text := (Lexeme.lex (normalize s)).flatMap (·.text)

end KineticText.Highlight
