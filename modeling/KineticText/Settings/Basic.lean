import KineticText.Params
import KineticText.Text.Basic

/-! The settings of an animated text. -/
namespace KineticText

/-- Defaults of the animation parameters, the pace of the reveal, and how much is logged. -/
structure Settings where
  defaults : Params Float := ⟨1, 1, 1, 1, 0, 0⟩
  /-- Reveal the characters one after the other, not all at once. -/
  typewriter : Bool := true
  /-- Seconds to wait after a character. -/
  letterWait : Float := 0.05
  /-- Seconds to wait after a pause. -/
  pauseWait : Float := 0.5
  /-- The character that makes a pause. -/
  pauseChar : Char := '.'
  verbosity : Nat := 1
  deriving DecidableEq

namespace Settings

/-- The text that marks a pause. -/
def pauseMark (s : Settings) : Text := [s.pauseChar]

/-- The defaults for parameters left unset. -/
def paramDefaults (s : Settings) : Params (Option Float) := s.defaults.map some

end Settings
end KineticText
