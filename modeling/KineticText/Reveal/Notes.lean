import KineticText.Log.Note
import KineticText.Reveal.Player

/-! The notes of a reveal. -/
namespace KineticText.Player

variable {τ ε : Type} (p q : Player τ)

def note (routine : String) (message : Text) : Journal ε Unit :=
  .note 2 ⟨"textmotion.lib.scheduler".toList, routine.toList⟩ message

/-- Notes that a schedule is dropped. -/
def cancelNotes : Journal ε Unit :=
  if p.isActive then note "cancel" "Reveal cancelled".toList else return

/-- Notes that the reveal `q` of so many characters starts in place of `p`. -/
def startNotes (visibleCount : Nat) : Journal ε Unit := do
  p.cancelNotes
  if q.isActive then
    note "start" ("Reveal started for ".toList ++ Text.ofNat visibleCount ++ " characters".toList)

/-- Notes that an update from `p` to `q` has come to the end of the schedule. -/
def updateNotes : Journal ε Unit :=
  if p.isActive ∧ ¬ q.isActive then
    note "update" ("Reveal finished at ".toList ++ Text.ofNat q.revealed ++ " characters".toList)
  else return

end KineticText.Player
