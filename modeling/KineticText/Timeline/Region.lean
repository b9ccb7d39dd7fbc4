import KineticText.Codeword
import KineticText.Params

/-! Regions: runs of visible characters under one effect. -/
namespace KineticText

/-- The visible characters from `start` up to `stop`. A region made by hand may name no effect,
run backwards or leave parameters unset. -/
structure Region where
  effect : Option Effect
  start : Int
  stop : Int
  params : Params (Option Float)
  deriving DecidableEq

namespace Region

def covers (r : Region) (i : Int) : Bool := r.start ≤ i ∧ i < r.stop

/-- The number of characters; a region that runs backwards has none. -/
def length? (r : Region) : Option Nat :=
  if r.start ≤ r.stop then some (r.stop - r.start).toNat else none

end Region

/-- The regions that cover a visible character, in timeline order. -/
def regionsAt (timeline : List Region) (i : Int) : List Region := timeline.filter (·.covers i)

end KineticText
