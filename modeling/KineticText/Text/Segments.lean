import KineticText.Text.Basic

/-! Cutting a text at the occurrences of another. -/
namespace KineticText.Text

/-- Reads `s` after the finished segments `done` and the segment `current`, both newest first. -/
def segmentsFrom (mark : Text) (done : List Text) (current : Text) : Text → List Text
  | [] => (current.reverse :: done).reverse
  | c :: s =>
    if mark.isPrefixOf (c :: s) then
      segmentsFrom mark (current.reverse :: done) [] (s.drop (mark.length - 1))
    else segmentsFrom mark done (c :: current) s
termination_by s => s.length
decreasing_by
  · rw [List.length_drop, List.length_cons]
    omega
  · rw [List.length_cons]
    omega

/-- The texts before, between and after the leftmost disjoint occurrences of `mark`,
which is not empty. -/
def segments (mark s : Text) : List Text := segmentsFrom mark [] [] s

end KineticText.Text
