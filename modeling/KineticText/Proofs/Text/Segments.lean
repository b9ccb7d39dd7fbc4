import KineticText.Text.Segments
import Mathlib.Data.List.Basic
import Mathlib.Data.List.Infix

/-! The segments of a text: they make it up again, with the mark between them. -/
namespace KineticText.Text

variable {mark s w : Text} {c : Char}

theorem length_drop_lt (n : Nat) (c : Char) (s : Text) : (s.drop n).length < (c :: s).length := by
  rw [List.length_drop, List.length_cons]
  omega

/-- What was read before goes in front, whatever comes. -/
theorem segmentsFrom_eq (mark : Text) (done : List Text) (current s : Text) :
    segmentsFrom mark done current s =
      done.reverse ++ (segments mark s).modifyHead (current.reverse ++ ·) := by
  induction hn : s.length using Nat.strongRecOn generalizing done current s with
  | _ n ih =>
    subst hn
    cases s with
    | nil => simp [segments, segmentsFrom]
    | cons c s =>
      rw [segments, segmentsFrom, segmentsFrom]
      split
      · have hlt := length_drop_lt (mark.length - 1) c s
        rw [ih _ hlt _ _ _ rfl, ih _ hlt [[].reverse] _ _ rfl]
        simp
      · rw [ih s.length (by simp) _ _ _ rfl, ih s.length (by simp) [] _ _ rfl]
        simp [Function.comp_def]

@[simp] theorem segments_nil : segments mark [] = [[]] := by simp [segments, segmentsFrom]

theorem segments_cons_cut (h : mark.isPrefixOf (c :: s)) :
    segments mark (c :: s) = [] :: segments mark (s.drop (mark.length - 1)) := by
  rw [segments, segmentsFrom, if_pos h, segmentsFrom_eq]
  cases segments mark (s.drop (mark.length - 1)) <;> rfl

theorem segments_cons_skip (h : ¬ mark.isPrefixOf (c :: s)) :
    segments mark (c :: s) = (segments mark s).modifyHead (c :: ·) := by
  rw [segments, segmentsFrom, if_neg h, segmentsFrom_eq]
  rfl

theorem segments_ne_nil (mark s : Text) : segments mark s ≠ [] := by
  induction s with
  | nil => simp
  | cons c s ih =>
    by_cases h : mark.isPrefixOf (c :: s)
    · simp [segments_cons_cut h]
    · simpa [segments_cons_skip h] using ih

theorem eq_append_drop_of_cut (hm : mark ≠ []) (h : mark.isPrefixOf (c :: s)) :
    c :: s = mark ++ s.drop (mark.length - 1) := by
  obtain ⟨m, mark, rfl⟩ := List.exists_cons_of_ne_nil hm
  obtain ⟨t, ht⟩ := List.isPrefixOf_iff_prefix.mp h
  obtain ⟨-, rfl⟩ := List.cons.inj ht
  simpa using ht.symm

/-- Nothing is lost between the segments but the marks. -/
theorem intercalate_segments (hm : mark ≠ []) (s : Text) :
    mark.intercalate (segments mark s) = s := by
  induction hn : s.length using Nat.strongRecOn generalizing s with
  | _ n ih =>
    subst hn
    cases s with
    | nil => simp
    | cons c s =>
      by_cases h : mark.isPrefixOf (c :: s)
      · rw [segments_cons_cut h, List.intercalate_cons_of_ne_nil (segments_ne_nil _ _),
          ih _ (length_drop_lt _ c s) _ rfl, List.nil_append, ← eq_append_drop_of_cut hm h]
      · have hs := ih s.length (by simp) s rfl
        obtain ⟨w, ws, hw⟩ := List.exists_cons_of_ne_nil (segments_ne_nil mark s)
        rw [segments_cons_skip h, hw, List.modifyHead_cons]
        rw [hw] at hs
        cases ws with
        | nil => simpa using hs
        | cons v ws => simpa [List.intercalate_cons_cons] using hs

/-- No mark is left in a segment. -/
theorem not_isInfix_of_mem_segments (hm : mark ≠ []) (hw : w ∈ segments mark s) :
    ¬ mark <:+: w := by
  induction hn : s.length using Nat.strongRecOn generalizing s w with
  | _ n ih =>
    subst hn
    have hnil : ¬ mark <:+: [] := by simpa using hm
    cases s with
    | nil =>
      obtain rfl : w = [] := by simpa using hw
      exact hnil
    | cons c s =>
      by_cases h : mark.isPrefixOf (c :: s)
      · rw [segments_cons_cut h, List.mem_cons] at hw
        rcases hw with rfl | hw
        · exact hnil
        · exact ih _ (length_drop_lt _ c s) hw rfl
      · obtain ⟨v, vs, hv⟩ := List.exists_cons_of_ne_nil (segments_ne_nil mark s)
        rw [segments_cons_skip h, hv, List.modifyHead_cons, List.mem_cons] at hw
        rcases hw with rfl | hw
        · -- A mark at the front of the longer segment would be one at the front of the text.
          have hprefix : c :: v <+: c :: s := by
            have hs := intercalate_segments hm s
            rw [hv] at hs
            rw [← hs, List.cons_prefix_cons]
            cases vs with
            | nil => simp
            | cons v' vs => simp [List.intercalate_cons_cons]
          intro hin
          rcases List.infix_cons_iff.mp hin with hfront | hin
          · exact h (List.isPrefixOf_iff_prefix.mpr (hfront.trans hprefix))
          · exact ih _ (by simp) (hv ▸ List.mem_cons_self) rfl hin
        · exact ih _ (by simp) (hv ▸ List.mem_cons_of_mem v hw) rfl

theorem notMem_segments {x : Char} (hw : w ∈ segments [x] s) : x ∉ w := by
  intro hx
  obtain ⟨u, v, rfl⟩ := List.append_of_mem hx
  exact not_isInfix_of_mem_segments (List.cons_ne_nil x []) hw ⟨u, v, by simp⟩

/-- A text without the mark is one segment. -/
theorem segments_of_not_isInfix (h : ¬ mark <:+: s) : segments mark s = [s] := by
  induction s with
  | nil => exact segments_nil
  | cons c s ih =>
    have hcut : ¬ mark.isPrefixOf (c :: s) := fun hp =>
      h (List.isPrefixOf_iff_prefix.mp hp).isInfix
    rw [segments_cons_skip hcut, ih fun hin => h (List.infix_cons hin)]
    rfl

end KineticText.Text
