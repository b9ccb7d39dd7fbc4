import KineticText.Animator
import KineticText.Log.Hub
import KineticText.Reveal.Notes

/-! A host's session: its log, and one reveal that leaves notes in it. -/
namespace KineticText

structure Session where
  settings : Settings
  registry : Registry
  hub : Hub := {}
  player : Player Float := .idle

namespace Session

variable (x : Session)

/-- Compiles markup. From here on the verbosity of the settings is in force, also if the compile
fails. -/
def compile (source : Text) : Session × List Written × Except CompileError Compiled :=
  let x := { x with hub := x.hub.connect (some x.settings.verbosity) }
  (x, x.hub.follow (compileJournal x.settings x.registry source))

/-- Compiles markup and starts its reveal. -/
def start (source : Text) : Session × List Written × Except CompileError Compiled :=
  match x.compile source with
  | (x, written, .error e) => (x, written, .error e)
  | (x, written, .ok c) =>
    let player := c.reveal x.settings x.player
    let notes : Journal CompileError Unit := x.player.startNotes player c.visibleCount
    ({ x with player }, written ++ (x.hub.follow notes).1, .ok c)

/-- Lets time pass. -/
def update (elapsed : Float) : Session × List Written :=
  let player := (x.player.update elapsed).2
  let notes : Journal CompileError Unit := x.player.updateNotes player
  ({ x with player }, (x.hub.follow notes).1)

/-- Cancels the reveal. -/
def cancel : Session × List Written :=
  let notes : Journal CompileError Unit := x.player.cancelNotes
  ({ x with player := x.player.cancel }, (x.hub.follow notes).1)

end Session
end KineticText
