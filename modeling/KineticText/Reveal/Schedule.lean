import KineticText.Token.Basic

/-! The order and the pace in which characters appear. -/
namespace KineticText

/-- A step of a reveal: the text that appears, which is empty for a directive, and the wait
after it. Times are of any type that can be added and compared. -/
structure Event (τ : Type) where
  text : Text
  wait : τ
  deriving DecidableEq

namespace Event

variable {τ : Type}

/-- Something appears. -/
def isVisible (e : Event τ) : Bool := ! e.text.isEmpty

end Event

/-- How long to wait after a character and after a pause. -/
structure Pace (τ : Type) where
  letter : τ
  pause : τ

variable {τ : Type} [Zero τ]

/-- The events of a token: text appears by characters, a pause at once, and so does nothing for
a directive; only a native tag that is cut off is shown, and appears as text does. -/
def Token.events (p : Pace τ) (t : Token) : List (Event τ) :=
  let letters (s : Text) := s.map fun c => Event.mk [c] p.letter
  match t.kind with
  | .text => letters t.content
  | .pause => [⟨t.content, p.pause⟩]
  | .directive => if t.isNative ∧ ¬ t.closed then letters t.markup else [⟨[], 0⟩]

/-- The events of a reveal. -/
def schedule (p : Pace τ) (tokens : List Token) : List (Event τ) := tokens.flatMap (·.events p)

end KineticText
