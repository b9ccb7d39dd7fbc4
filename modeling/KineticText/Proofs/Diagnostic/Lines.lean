import KineticText.Diagnostic.Report
import Mathlib.Data.List.Basic

/-! The lines of a written diagnostic: what is wrong, the source around it, and the caret, which
stands below the character that is wrong. -/
namespace KineticText

namespace Text

/-- The lines of a text: what stands before, between and behind its line ends. -/
def lines (s : Text) : List Text := s.splitOn '\n'

/-- A text on one line: every line end is a space. -/
def flat (s : Text) : Text := s.map fun c => if c = '\n' then ' ' else c

theorem lines_append (s t : Text) : lines (s ++ '\n' :: t) = lines s ++ lines t :=
  List.splitOn_append_cons_self s t

theorem lines_of_notMem {s : Text} (h : '\n' ∉ s) : lines s = [s] := List.splitOn_eq_singleton h

/-- There is one line more than there are line ends. -/
theorem length_lines (s : Text) : (lines s).length = s.count '\n' + 1 := by
  induction s with
  | nil => rfl
  | cons c s ih =>
    by_cases hc : c = '\n'
    · rw [hc, ← List.nil_append ('\n' :: s), lines_append, List.length_append, ih, List.nil_append,
        List.count_cons_self, lines_of_notMem List.not_mem_nil]
      exact Nat.add_comm _ _
    · obtain ⟨w, ws, hws⟩ := List.exists_cons_of_ne_nil (List.splitOn_ne_nil '\n' s)
      rw [List.count_cons_of_ne hc, ← ih, lines, lines, List.splitOn_cons_eq_if_modifyHead, hws]
      simp [hc]

theorem notMem_flat (s : Text) : '\n' ∉ flat s := by
  intro h
  obtain ⟨c, -, hc⟩ := List.mem_map.mp h
  split at hc
  · exact absurd hc (by decide)
  · exact absurd hc (by assumption)

end Text

namespace Diagnostic

variable {d : Diagnostic} {width : Int} {source : Text}

/-- The line with the source around a diagnostic. -/
def excerptLine (source : Text) (width : Int) (d : Diagnostic) : Text :=
  "Context: ...".toList ++ d.excerpt source.toArray width ++ "...".toList

/-- The line with the caret. -/
def caretLine (width : Int) (d : Diagnostic) : Text :=
  List.replicate (9 + (d.caretShift width).toNat) ' ' ++ ['^']

theorem excerpt_eq (source : Text) (width : Int) (d : Diagnostic) : d.excerpt source.toArray width =
    Text.flat (source.extract (d.excerptStart width) (d.excerptStop source.length width)) := by
  rw [excerpt, Array.toList_extract]
  rfl

theorem notMem_excerptLine : '\n' ∉ d.excerptLine source width := by
  unfold excerptLine
  rw [excerpt_eq, List.mem_append, List.mem_append]
  rintro ((h | h) | h)
  · exact absurd h (by decide)
  · exact Text.notMem_flat _ h
  · exact absurd h (by decide)

theorem notMem_caretLine : '\n' ∉ d.caretLine width := by
  simp [caretLine]

/-- The last two lines of a written diagnostic are those of the source and of the caret, whatever is
said in the lines before. -/
theorem lines_render (source : Text) (width : Int) (d : Diagnostic) :
    (d.render source.toArray width).lines =
      d.headline.lines ++ [d.excerptLine source width, d.caretLine width] := by
  have hrender : d.render source.toArray width =
      d.headline ++ '\n' :: (d.excerptLine source width ++ '\n' :: d.caretLine width) := by
    unfold render excerptLine caretLine
    simp only [List.append_assoc]
    rfl
  rw [hrender, Text.lines_append, Text.lines_append, Text.lines_of_notMem notMem_excerptLine,
    Text.lines_of_notMem notMem_caretLine]
  rfl

/-! ### The caret -/

theorem excerptStart_eq (width : Int) (d : Diagnostic) :
    d.excerptStart width = (max 0 (d.offset - width)).toNat := by
  unfold excerptStart
  omega

/-- Where an offset is in the source and the width is positive, the shown part does not end before
the first character. -/
theorem excerptStop_eq (length : Nat) (hwidth : 1 ≤ width) (hoffset : 0 ≤ d.offset) :
    d.excerptStop length width = (min (length : Int) (d.offset + width)).toNat := by
  unfold excerptStop
  simp only
  rw [if_neg (by omega)]

/-- A character of the source is shown as far behind the start as it stands behind it. -/
theorem getElem?_excerpt {i : Nat} (hstart : d.excerptStart width ≤ i)
    (hstop : i < d.excerptStop source.length width) :
    (d.excerpt source.toArray width)[i - d.excerptStart width]? =
      source[i]?.map fun c => if c = '\n' then ' ' else c := by
  rw [excerpt_eq, Text.flat, List.getElem?_map, List.extract_eq_take_drop, List.getElem?_take,
    if_pos (by omega), List.getElem?_drop, Nat.add_sub_cancel' hstart]

theorem length_excerpt_le (hwidth : 0 ≤ width) (hoffset : 0 ≤ d.offset + width) :
    ((d.excerpt source.toArray width).length : Int) ≤ 2 * width := by
  rw [excerpt_eq, Text.flat, List.length_map, List.extract_eq_take_drop, List.length_take]
  unfold excerptStart excerptStop
  simp only
  omega

/-- The caret is as far from the edge as the offset, and no farther than the width. -/
theorem caretShift_eq (width : Int) (d : Diagnostic) :
    d.caretShift width = 3 + min d.offset width := by
  unfold caretShift excerptStart
  omega

/-- The caret can be written where positions are counts and the width is one. -/
theorem hasCaret_of_isCount (hcount : Text.isCount (d.offset + 3))
    (hwidth : Text.isCount width) : d.hasCaret width := by
  rw [hasCaret, caretShift_eq]
  unfold Text.isCount at *
  simp only [decide_eq_true_eq] at *
  omega

/-- In a report the caret can always be written. -/
theorem hasCaret_default (hoffset : 0 ≤ d.offset) : d.hasCaret defaultWidth := by
  rw [hasCaret, caretShift_eq, Text.isCount, decide_eq_true_iff, Text.countBound, defaultWidth]
  omega

/-- Whatever a diagnostic says, its last line is the caret, and the line before it shows the source
on both sides of the offset; the caret stands below the character at the offset. -/
theorem render_caret (source : Text) (width : Int) (d : Diagnostic) (hwidth : 1 ≤ width)
    (hstart : 0 ≤ d.offset) (hstop : d.offset < source.length) :
    ∃ (w : Text) (column : Nat) (x : Char),
      (d.render source.toArray width).lines = d.headline.lines ++
        ["Context: ...".toList ++ w ++ "...".toList, List.replicate column ' ' ++ ['^']] ∧
      w = Text.flat (source.extract (max 0 (d.offset - width)).toNat
        (min (source.length : Int) (d.offset + width)).toNat) ∧
      (w.length : Int) ≤ 2 * width ∧
      source[d.offset.toNat]? = some x ∧
      ("Context: ...".toList ++ w ++ "...".toList)[column]? =
        some (if x = '\n' then ' ' else x) := by
  have hi : d.offset.toNat < source.length := by omega
  have hfrom : d.excerptStart width ≤ d.offset.toNat := by
    unfold excerptStart
    omega
  have hto : d.offset.toNat < d.excerptStop source.length width := by
    rw [excerptStop_eq source.length hwidth hstart]
    omega
  have hx : source[d.offset.toNat]? = some source[d.offset.toNat] := List.getElem?_eq_getElem hi
  refine ⟨d.excerpt source.toArray width, 9 + (d.caretShift width).toNat, source[d.offset.toNat],
    lines_render source width d, ?_, length_excerpt_le (by omega) (by omega), hx, ?_⟩
  · rw [excerpt_eq, excerptStart_eq, excerptStop_eq source.length hwidth hstart]
  · have hcolumn : 9 + (d.caretShift width).toNat =
        "Context: ...".toList.length + (d.offset.toNat - d.excerptStart width) := by
      have hlength : "Context: ...".toList.length = 12 := rfl
      rw [hlength]
      unfold caretShift
      omega
    have hshown := getElem?_excerpt hfrom hto
    rw [hx, Option.map_some] at hshown
    have hinside : d.offset.toNat - d.excerptStart width <
        (d.excerpt source.toArray width).length :=
      (List.getElem?_eq_some_iff.mp hshown).1
    rw [hcolumn, List.append_assoc, List.getElem?_append_right (Nat.le_add_right _ _),
      Nat.add_sub_cancel_left, List.getElem?_append_left hinside, hshown]

/-- A diagnostic of two lines at a line end of its source. -/
def torn : Diagnostic := ⟨.regionMismatch, 2, "first\nsecond".toList⟩

theorem render_caret_torn :
    ∃ (w : Text) (column : Nat) (x : Char),
      (torn.render "ab\nc".toList.toArray 1).lines = torn.headline.lines ++
        ["Context: ...".toList ++ w ++ "...".toList, List.replicate column ' ' ++ ['^']] ∧
      w = "b ".toList ∧ "ab\nc".toList[2]? = some x ∧
      ("Context: ...".toList ++ w ++ "...".toList)[column]? =
        some (if x = '\n' then ' ' else x) := by
  obtain ⟨w, column, x, hlines, hw, -, hx, hcolumn⟩ :=
    render_caret "ab\nc".toList 1 torn (by decide) (by decide) (by decide)
  exact ⟨w, column, x, hlines, hw, hx, hcolumn⟩

end Diagnostic
end KineticText
