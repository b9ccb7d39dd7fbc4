import KineticText.Text.Segments
import KineticText.Token.Basic

/-! Pauses: the marks in running text at which a reveal waits longer. -/
namespace KineticText

namespace Token

/-- Tokens with the given contents, one behind the other; all else is as in `t`. -/
def layOut (t : Token) (offset : Int) : List (Kind × Text) → List Token
  | [] => []
  | (kind, content) :: rest =>
    { t with kind, content, offset } :: t.layOut (offset + content.length) rest

/-- The texts and the pauses of a text token. A token without a pause stays as it is. -/
def pieces (mark : Text) (t : Token) : List Token :=
  match Text.segments mark t.content with
  | [_] => [t]
  | segments =>
    t.layOut t.offset <|
      ((segments.map (Kind.text, ·)).intersperse (.pause, mark)).filter (·.2 ≠ [])

end Token

/-- Makes a pause token of every occurrence of `mark` in the text tokens. An empty mark occurs
nowhere. -/
def splitPauses (mark : Text) (tokens : List Token) : List Token :=
  tokens.flatMap fun t => if t.kind = .text ∧ mark ≠ [] then t.pieces mark else [t]

/-- Why text cannot be split. -/
inductive SplitError where
  | emptySeparator
  deriving DecidableEq

def SplitError.message : SplitError → Text
  | emptySeparator => "empty separator".toList

/-- Splits on any mark, but refuses to split text on an empty one. -/
def splitPauses? (mark : Text) (tokens : List Token) : Except SplitError (List Token) :=
  if mark = [] ∧ ∃ t ∈ tokens, t.kind = .text then .error .emptySeparator
  else .ok (splitPauses mark tokens)

end KineticText
