import KineticText.Proofs.Text.Segments

/-! The marks between the segments of a text: its leftmost disjoint occurrences of the mark. -/
namespace KineticText.Text

variable {mark s u w : Text} {c : Char} {start i : Nat} {is : List Nat} {ws : List Text}

/-- The mark stands in the text at position `i`. -/
def OccursAt (mark s : Text) (i : Nat) : Prop := mark <+: s.drop i

/-- The positions of the occurrences of the mark from `start` on, where each is the first one
behind the occurrence before it. -/
inductive Leftmost (mark s : Text) : Nat → List Nat → Prop where
  | done {start : Nat} : (∀ i, start ≤ i → ¬ OccursAt mark s i) → Leftmost mark s start []
  | next {start i : Nat} {is : List Nat} : start ≤ i → OccursAt mark s i →
      (∀ j, start ≤ j → j < i → ¬ OccursAt mark s j) →
      Leftmost mark s (i + mark.length) is → Leftmost mark s start (i :: is)

/-- The positions of the marks between segments, the first of which begins at `start`. -/
def markPlaces (mark : Text) : Nat → List Text → List Nat
  | start, w :: v :: ws =>
    (start + w.length) :: markPlaces mark (start + w.length + mark.length) (v :: ws)
  | _, _ => []

theorem occursAt_append : OccursAt mark (u ++ s) u.length ↔ mark <+: s := by
  rw [OccursAt, List.drop_left]

theorem not_occursAt_of_length_le (hm : mark ≠ []) (h : s.length ≤ i) : ¬ OccursAt mark s i := by
  rw [OccursAt, List.drop_eq_nil_of_le h, List.prefix_nil]
  exact hm

theorem Leftmost.succ (h : Leftmost mark s (start + 1) is) (hs : ¬ OccursAt mark s start) :
    Leftmost mark s start is := by
  have hfrom (i : Nat) (hi : start ≤ i) (hno : start + 1 ≤ i → ¬ OccursAt mark s i) :
      ¬ OccursAt mark s i := by
    rcases Nat.eq_or_lt_of_le hi with rfl | hlt
    · exact hs
    · exact hno hlt
  cases h with
  | done h => exact .done fun i hi => hfrom i hi (h i)
  | next hle ho hfirst hrest =>
    exact .next (by omega) ho (fun j hj hlt => hfrom j hj fun hj => hfirst j hj hlt) hrest

theorem markPlaces_cons (mark : Text) (start : Nat) (c : Char) (w : Text) (ws : List Text) :
    markPlaces mark start ((c :: w) :: ws) = markPlaces mark (start + 1) (w :: ws) := by
  cases ws with
  | nil => rfl
  | cons v ws =>
    have hlen : start + (c :: w).length = start + 1 + w.length := by
      rw [List.length_cons]
      omega
    rw [markPlaces, markPlaces, hlen]

/-- The text before a position plays no part in where marks are found behind it. -/
theorem leftmost_segments_append (hm : mark ≠ []) (u s : Text) :
    Leftmost mark (u ++ s) u.length (markPlaces mark u.length (segments mark s)) := by
  induction hn : s.length using Nat.strongRecOn generalizing u s with
  | _ n ih =>
    subst hn
    cases s with
    | nil =>
      rw [segments_nil, List.append_nil]
      exact .done fun i hi => not_occursAt_of_length_le hm hi
    | cons c s =>
      by_cases h : mark.isPrefixOf (c :: s)
      · obtain ⟨w, ws, hw⟩ := List.exists_cons_of_ne_nil
          (segments_ne_nil mark (s.drop (mark.length - 1)))
        have hrest := ih _ (length_drop_lt (mark.length - 1) c s) (u ++ mark) _ rfl
        rw [hw, List.append_assoc, ← eq_append_drop_of_cut hm h, List.length_append] at hrest
        rw [segments_cons_cut h, hw]
        refine .next (Nat.le_refl _) ?_ ?_ hrest
        · exact occursAt_append.mpr (List.isPrefixOf_iff_prefix.mp h)
        · intro j hj hlt
          exact absurd hlt (Nat.not_lt.mpr hj)
      · obtain ⟨w, ws, hw⟩ := List.exists_cons_of_ne_nil (segments_ne_nil mark s)
        have hrest := ih s.length (by simp) (u ++ [c]) s rfl
        rw [hw, List.append_assoc, List.singleton_append, List.length_append,
          List.length_singleton] at hrest
        rw [segments_cons_skip h, hw, List.modifyHead_cons, markPlaces_cons]
        apply hrest.succ
        rw [occursAt_append, ← List.isPrefixOf_iff_prefix]
        exact h

/-- A text is cut at its leftmost disjoint occurrences of the mark. -/
theorem leftmost_segments (hm : mark ≠ []) (s : Text) :
    Leftmost mark s 0 (markPlaces mark 0 (segments mark s)) :=
  leftmost_segments_append hm [] s

end KineticText.Text
