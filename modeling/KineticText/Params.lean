/-! The six parameters of an animation. -/
namespace KineticText

/-- The parameters in the order a directive lists them: amplitude and axis frequencies of the
waveform, then the scale of the resting position and its phase on each axis. -/
structure Params (α : Type) where
  amplitude : α
  frequencyX : α
  frequencyY : α
  scale : α
  phaseX : α
  phaseY : α
  deriving DecidableEq

namespace Params

variable {α β γ : Type}

def toList (p : Params α) : List α :=
  [p.amplitude, p.frequencyX, p.frequencyY, p.scale, p.phaseX, p.phaseY]

def map (f : α → β) (p : Params α) : Params β :=
  ⟨f p.amplitude, f p.frequencyX, f p.frequencyY, f p.scale, f p.phaseX, f p.phaseY⟩

def zipWith (f : α → β → γ) (p : Params α) (q : Params β) : Params γ :=
  ⟨f p.amplitude q.amplitude, f p.frequencyX q.frequencyX, f p.frequencyY q.frequencyY,
    f p.scale q.scale, f p.phaseX q.phaseX, f p.phaseY q.phaseY⟩

/-- How many parameters there are. -/
def count : Nat := 6

def unset : Params (Option α) := ⟨none, none, none, none, none, none⟩

/-- The first six values in order; parameters past the end of the list stay unset. -/
def ofList (values : List (Option α)) : Params (Option α) :=
  let value (i : Nat) := values[i]?.join
  ⟨value 0, value 1, value 2, value 3, value 4, value 5⟩

def isUnset (p : Params (Option α)) : Bool := p.toList.all Option.isNone

/-- Every unset parameter takes its default; zero is a value like any other. -/
def withDefaults (p defaults : Params (Option α)) : Params (Option α) :=
  p.zipWith Option.or defaults

end Params
end KineticText
