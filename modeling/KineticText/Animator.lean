import KineticText.Attempt
import KineticText.Compile
import KineticText.Displacement
import KineticText.Reveal.Player

/-! An animated text: what it shows, how it moves, and how far its reveal has come. -/
namespace KineticText

def Settings.pace (s : Settings) : Pace Float := ⟨s.letterWait, s.pauseWait⟩

/-- Starts the reveal of compiled markup on a player. -/
def Compiled.reveal (c : Compiled) (s : Settings) (p : Player Float) : Player Float :=
  p.start s.typewriter c.visibleCount (schedule s.pace c.processed)

/-- A text target with its settings and directives; it shows nothing at first. -/
structure Animator where
  settings : Settings
  registry : Registry
  shown : Option Compiled := none
  player : Player Float := .idle

namespace Animator

variable (a : Animator)

/-- Compiles new markup, and only then drops the running reveal and starts another. -/
def displaying (source : Text) : Attempt Animator CompileError Compiled := do
  let a ← get
  let c ← MonadExcept.ofExcept (compile a.settings a.registry source)
  modify fun a => { a with player := a.player.cancel }
  modify fun a => { a with shown := some c }
  modify fun a => { a with player := c.reveal a.settings a.player }
  return c

/-- Shows new markup and reveals it from the start, if it compiles. -/
def display (source : Text) : Except CompileError Compiled × Animator :=
  Attempt.outcome (displaying source) a

/-- Lets time pass; says how many characters appear. -/
def update (elapsed : Float) : Nat × Animator :=
  let (revealed, player) := a.player.update elapsed
  (revealed, { a with player })

def cancel : Animator := { a with player := a.player.cancel }

/-- The display text. -/
def text : Text := (a.shown.map (·.display)).getD []

/-- Displaces a vertex of a visible character. -/
def displace (index : Int) (time : Float) (v : Vertex) (draws : Draws) :
    Displaced (Vertex × Draws) :=
  match a.shown with
  | none => .ok (v, draws)
  | some c => KineticText.displace c.regions index time v draws

end Animator
end KineticText
