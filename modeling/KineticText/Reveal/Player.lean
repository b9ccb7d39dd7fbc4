import KineticText.Reveal.Schedule

/-! Playing a schedule as time passes. -/
namespace KineticText

/-- The progress of a reveal. -/
structure Player (τ : Type) where
  /-- The events still to come, if a schedule runs. -/
  pending : Option (List (Event τ))
  /-- The time to wait before the next event. -/
  remaining : τ
  /-- How many characters have been revealed. -/
  revealed : Nat

namespace Player

variable {τ : Type} [Zero τ] [Add τ] [Sub τ] [LE τ] [DecidableLE τ] (p : Player τ)

/-- Nothing revealed, nothing to reveal. -/
def idle : Player τ := ⟨none, 0, 0⟩

def isActive : Bool := p.pending.isSome

/-- Drops the schedule; what is revealed stays. -/
def cancel : Player τ := { p with pending := none }

/-- Starts on a schedule in place of any other. Without the typewriter all `visibleCount`
characters show at once. -/
def start (typewriter : Bool) (visibleCount : Nat) (events : List (Event τ)) : Player τ :=
  let p := { p.cancel with remaining := 0 }
  if typewriter then { p with revealed := 0, pending := some events }
  else { p with revealed := visibleCount }

/-- Fires the events whose time has come, counting the characters they reveal: an event fires
while nothing remains to wait, and adds its own wait. A schedule that runs out is over. -/
def fire (remaining : τ) (count : Nat) : List (Event τ) → Option (List (Event τ)) × τ × Nat
  | [] => if remaining ≤ 0 then (none, 0, count) else (some [], remaining, count)
  | e :: es =>
    if remaining ≤ 0 then
      fire (remaining + e.wait) (if e.isVisible then count + 1 else count) es
    else (some (e :: es), remaining, count)

/-- Lets time pass, and says how many characters this reveals. -/
def update (elapsed : τ) : Nat × Player τ :=
  match p.pending with
  | none => (0, p)
  | some events =>
    let (pending, remaining, count) := fire (p.remaining - elapsed) 0 events
    (count, ⟨pending, remaining, p.revealed + count⟩)

end Player
end KineticText
