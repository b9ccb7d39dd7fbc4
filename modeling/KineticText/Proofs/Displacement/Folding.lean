import KineticText.Displacement
import KineticText.Proofs.Compile.Outcome
import KineticText.Proofs.Timeline.Regions

/-! A vertex goes from one region that covers its character to the next, each of which moves it and
takes the random numbers that it needs. -/
namespace KineticText

/-- A vertex scaled, and then offset on the first two axes. -/
def Vertex.moved (q : Params Float) (v : Vertex) (offsetX offsetY : Float) : Vertex :=
  ⟨q.scale * v.x + q.amplitude * offsetX, q.scale * v.y + q.amplitude * offsetY, q.scale * v.z⟩

/-- One timeline comes of the other by putting in, taking out and moving regions that do not cover
the character at `index`. -/
inductive Rearranged (index : Int) : List Region → List Region → Prop where
  | same (gs : List Region) : Rearranged index gs gs
  | inserted {gs hs : List Region} {g : Region} (hg : ¬ g.covers index) :
      Rearranged index (gs ++ hs) (gs ++ g :: hs)
  | deleted {gs hs : List Region} {g : Region} (hg : ¬ g.covers index) :
      Rearranged index (gs ++ g :: hs) (gs ++ hs)
  | moved {gs hs is : List Region} {g : Region} (hg : ¬ g.covers index) :
      Rearranged index (gs ++ g :: hs ++ is) (gs ++ hs ++ g :: is)
  | next {gs hs is : List Region} (h : Rearranged index gs hs) (h' : Rearranged index hs is) :
      Rearranged index gs is

variable {index : Int} {time x : Float} {value : Nat → Float} {g : Region} {gs hs : List Region}
  {v u w : Vertex} {n k m : Nat} {draws draws' : Draws} {e : DisplacementError}
  {p : Params (Option Float)} {s : Settings} {r : Registry} {source : Text} {c : Compiled}

/-! ### One region -/

section Steps

variable {α β : Type} {f : α → Displaced β} {b : β}

end Steps

theorem Rearranged.symm (h : Rearranged index gs hs) : Rearranged index hs gs := by
  induction h with
  | same gs => exact .same gs
  | inserted hg => exact .deleted hg
  | deleted hg => exact .inserted hg
  | @moved gs hs is g hg =>
    have hback : Rearranged index (gs ++ hs ++ is) (gs ++ g :: hs ++ is) := by
      simpa using @Rearranged.inserted index gs (hs ++ is) g hg
    exact .next (.deleted hg) hback
  | next _ _ ih ih' => exact .next ih' ih

theorem Rearranged.cons (g : Region) (h : Rearranged index gs hs) :
    Rearranged index (g :: gs) (g :: hs) := by
  induction h with
  | same gs => exact .same (g :: gs)
  | @inserted gs hs _ hg => exact @Rearranged.inserted index (g :: gs) hs _ hg
  | @deleted gs hs _ hg => exact @Rearranged.deleted index (g :: gs) hs _ hg
  | @moved gs hs is _ hg => exact @Rearranged.moved index (g :: gs) hs is _ hg
  | next _ _ ih ih' => exact .next ih ih'

end KineticText
