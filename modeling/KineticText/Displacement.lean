import KineticText.Timeline.Region

/-! Displacement of a character's vertices. -/
namespace KineticText

structure Vertex where
  x : Float
  y : Float
  z : Float
  deriving DecidableEq

/-- A source of random numbers, and how many have been taken from it. -/
structure Draws where
  value : Nat → Float
  taken : Nat := 0

namespace Draws

def next (d : Draws) : Float × Draws := (d.value d.taken, { d with taken := d.taken + 1 })

/-- The values in turn, over and over; without any, always one half. -/
def cycle (values : Array Float) : Draws := { value := fun i => values.getD (i % values.size) 0.5 }

end Draws

/-- Why a vertex cannot be displaced. -/
inductive DisplacementError where
  /-- The region names no effect. -/
  | unknownEffect
  | unsetParameter
  | sineOfInfinity
  deriving DecidableEq

namespace DisplacementError

/-- What is said of an error; an unset parameter speaks for itself. -/
def message? : DisplacementError → Option Text
  | unknownEffect => some "Unknown animation kind: None".toList
  | unsetParameter => none
  | sineOfInfinity => some "math domain error".toList

end DisplacementError

abbrev Displaced := Except DisplacementError

variable (p : Params (Option Float))

/-- The value of a parameter that has to be set. -/
def need : Option Float → Displaced Float
  | some x => .ok x
  | none => .error .unsetParameter

def sine (x : Float) : Displaced Float := if x.isInf then .error .sineOfInfinity else .ok x.sin

/-- The scaled position, moved by the amplitude times an offset on the first two axes. -/
def shift (v : Vertex) (offsetX offsetY : Float) : Displaced Vertex := do
  let scale ← need p.scale
  let amplitude ← need p.amplitude
  return ⟨scale * v.x + amplitude * offsetX, scale * v.y + amplitude * offsetY, scale * v.z⟩

/-- A wave offsets each axis by the sine of time and position. -/
def waveDisplace (time : Float) (v : Vertex) : Displaced Vertex := do
  let offsetX ← sine (time * (← need p.frequencyX) + v.x * (← need p.phaseX))
  let offsetY ← sine (time * (← need p.frequencyY) + v.y * (← need p.phaseY))
  shift p v offsetX offsetY

/-- A random number of one axis: uniform within the frequency, offset by the position. -/
def jitterOffset (draw frequency position phase : Float) : Float :=
  draw * 2 * frequency - frequency + position * phase

/-- A jitter offsets each axis by a random number, the first axis first. -/
def jitterDisplace (v : Vertex) (draws : Draws) : Displaced (Vertex × Draws) := do
  let (drawX, draws) := draws.next
  let offsetX := jitterOffset drawX (← need p.frequencyX) v.x (← need p.phaseX)
  let (drawY, draws) := draws.next
  let offsetY := jitterOffset drawY (← need p.frequencyY) v.y (← need p.phaseY)
  return (← shift p v offsetX offsetY, draws)

/-- Displaces a vertex as the region's effect says. -/
def Region.displace (r : Region) (time : Float) (v : Vertex) (draws : Draws) :
    Displaced (Vertex × Draws) :=
  match r.effect with
  | some .wave => (waveDisplace r.params time v).map (·, draws)
  | some .jitter => jitterDisplace r.params v draws
  | none => .error .unknownEffect

/-- Displaces a vertex of the character at `index` by every region that covers it, in timeline
order, each from where the one before it has moved the vertex. -/
def displace (timeline : List Region) (index : Int) (time : Float) (v : Vertex) (draws : Draws) :
    Displaced (Vertex × Draws) :=
  (regionsAt timeline index).foldlM (fun (v, draws) r => r.displace time v draws) (v, draws)

end KineticText
