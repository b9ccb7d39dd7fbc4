import KineticText.Codeword
import KineticText.Params

/-! Tokens of markup: runs of text, directives in angle brackets, and pauses. -/
namespace KineticText

inductive Token.Kind where
  | text
  | directive
  | pause
  deriving DecidableEq

/-- A piece of the source. The content of a directive is what stands between its brackets; it is
not closed if the source ends before its `>`. -/
structure Token where
  kind : Token.Kind
  content : Text
  offset : Int := 0
  codeword : Codeword := .absent
  params : Params (Option Float) := .unset
  closed : Bool := true
  deriving DecidableEq

namespace Token

variable (t : Token)

def isDirective : Bool := t.kind = .directive

def isNative : Bool := t.kind = .directive ∧ t.codeword = .native

/-- The content between brackets; a missing `>` stays missing. -/
def markup : Text := '<' :: t.content ++ if t.closed then ['>'] else []

/-- The source characters of the token. -/
def source : Text := if t.isDirective then t.markup else t.content

/-- The number of source characters. -/
def span : Nat := t.content.length + if t.isDirective then if t.closed then 2 else 1 else 0

theorem length_source : t.source.length = t.span := by
  unfold source span markup
  cases t.isDirective <;> cases t.closed <;> simp

/-- What is left in the display text, where native tags stay and custom ones go. -/
def display : Text :=
  if t.isDirective then if t.isNative then t.markup else [] else t.content

/-- The characters a reader sees. The renderer takes a closed native tag as markup and shows
one that is cut off as plain text. -/
def visible : Text :=
  if t.isDirective then if t.isNative ∧ ¬ t.closed then t.markup else [] else t.content

end Token
end KineticText
