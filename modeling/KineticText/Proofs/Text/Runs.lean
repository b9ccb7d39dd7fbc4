import KineticText.Text.Basic
import Mathlib.Data.List.Forall2
import Mathlib.Data.List.TakeWhile

/-! Runs of characters of a class: at the front of a text, and around what `trim` leaves. -/
namespace KineticText

/-- What gives nothing can as well be left out. -/
theorem flatMap_filter {α β : Type} {xs : List α} {p : α → Bool} {f : α → List β}
    (h : ∀ x ∈ xs, ¬ p x → f x = []) : (xs.filter p).flatMap f = xs.flatMap f := by
  induction xs with
  | nil => rfl
  | cons x xs ih =>
    have hrest := ih fun y hy => h y (by simp [hy])
    by_cases hx : p x
    · simp [hx, hrest]
    · simp [hx, h x (by simp) hx, hrest]

/-- What has been built has been built of something. -/
theorem exists_of_mem_forall₂ {α β : Type} {R : α → β → Prop} {as : List α} {bs : List β} {b : β}
    (h : List.Forall₂ R as bs) (hb : b ∈ bs) : ∃ a ∈ as, R a b := by
  induction h with
  | nil => exact nomatch hb
  | @cons a b' as bs hab _ ih =>
    rcases List.mem_cons.mp hb with rfl | hb
    · exact ⟨a, List.mem_cons_self, hab⟩
    · obtain ⟨a', ha', hab'⟩ := ih hb
      exact ⟨a', List.mem_cons_of_mem a ha', hab'⟩

namespace Text

variable {p : Char → Bool} {s t w : Text}

/-- A run goes as far as its characters do, if what is behind it does not begin like it. -/
theorem takeWhile_append_stop (hw : ∀ c ∈ w, p c) (ht : ∀ c ∈ t.head?, ¬ p c) :
    (w ++ t).takeWhile p = w := by
  rw [List.takeWhile_append_of_pos hw]
  cases t with
  | nil => simp
  | cons c t =>
    have hc : ¬ p c := ht c rfl
    simp [hc]

theorem dropWhile_append_stop (hw : ∀ c ∈ w, p c) (ht : ∀ c ∈ t.head?, ¬ p c) :
    (w ++ t).dropWhile p = t := by
  rw [List.dropWhile_append_of_pos hw]
  cases t with
  | nil => rfl
  | cons c t =>
    have hc : ¬ p c := ht c rfl
    simp [hc]

/-- A text begins with a run, which may be empty, and goes on with what is not of the class. -/
theorem exists_run (p : Char → Bool) (s : Text) :
    ∃ w t, s = w ++ t ∧ (∀ c ∈ w, p c) ∧ ∀ c ∈ t.head?, ¬ p c := by
  induction s with
  | nil => exact ⟨[], [], rfl, by simp, by simp⟩
  | cons c s ih =>
    by_cases hc : p c
    · obtain ⟨w, t, rfl, hw, ht⟩ := ih
      exact ⟨c :: w, t, rfl, by simpa [hc] using hw, ht⟩
    · exact ⟨[], c :: s, rfl, by simp, by simpa using hc⟩

/-- Before what is trimmed of a text stands its first run, and behind it only more of the class. -/
theorem exists_eq_takeWhile_trimBy (p : Char → Bool) (s : Text) :
    ∃ v, s = s.takeWhile p ++ s.trimBy p ++ v ∧ ∀ c ∈ v, p c := by
  refine ⟨((s.dropWhile p).reverse.takeWhile p).reverse, ?_, ?_⟩
  · have hrest := List.takeWhile_append_dropWhile (p := p) (l := (s.dropWhile p).reverse)
    have hs := congrArg List.reverse hrest
    rw [List.reverse_append, List.reverse_reverse] at hs
    rw [List.append_assoc, trimBy, hs, List.takeWhile_append_dropWhile]
  · intro c hc
    exact List.mem_takeWhile_imp (List.mem_reverse.mp hc)

/-- A text is what is trimmed of it and what stands around that. -/
theorem exists_eq_trimBy (p : Char → Bool) (s : Text) :
    ∃ u v, s = u ++ s.trimBy p ++ v ∧ (∀ c ∈ u, p c) ∧ ∀ c ∈ v, p c := by
  obtain ⟨v, hs, hv⟩ := exists_eq_takeWhile_trimBy p s
  exact ⟨s.takeWhile p, v, hs, fun c hc => List.mem_takeWhile_imp hc, hv⟩

/-- A text that is not blank begins with blanks, as many as its indent, and then what is trimmed
of it. -/
theorem exists_indent (h : ¬ s.all isBlank) : ∃ u c v, s = u ++ c :: v ∧ (∀ x ∈ u, isBlank x) ∧
    ¬ isBlank c ∧ s.indent = u.length ∧ s.trim <+: c :: v := by
  obtain ⟨u, t, hs, hu, ht⟩ := exists_run isBlank s
  cases t with
  | nil =>
    rw [hs, List.append_nil] at h
    exact absurd (List.all_eq_true.mpr hu) h
  | cons c v =>
    have htake : s.takeWhile isBlank = u := by rw [hs, takeWhile_append_stop hu ht]
    obtain ⟨w, hw, -⟩ := exists_eq_takeWhile_trimBy isBlank s
    refine ⟨u, c, v, hs, hu, ht c rfl, ?_, w, ?_⟩
    · rw [indent, if_neg h, htake]
    · rw [htake, List.append_assoc] at hw
      exact (List.append_cancel_left (hs.symm.trans hw)).symm

theorem trimBy_append {u v : Text} (hu : ∀ c ∈ u, p c) (hw : ∀ c ∈ w, ¬ p c)
    (hv : ∀ c ∈ v, p c) : (u ++ w ++ v).trimBy p = w := by
  by_cases hnil : w = []
  · have hall : ∀ c ∈ u ++ v, p c := by
      intro c hc
      rcases List.mem_append.mp hc with hc | hc
      · exact hu c hc
      · exact hv c hc
    have hdrop : (u ++ v).dropWhile p = [] := List.dropWhile_eq_nil_iff.mpr hall
    simp [trimBy, hnil, hdrop]
  · have hfirst : ∀ c ∈ (w ++ v).head?, ¬ p c := by
      intro c hc
      cases w with
      | nil => exact absurd rfl hnil
      | cons d w => exact hw c (by simp_all)
    have hlast : ∀ c ∈ w.reverse.head?, ¬ p c := by
      intro c hc
      exact hw c (List.mem_reverse.mp (List.mem_of_mem_head? hc))
    have hv' : ∀ c ∈ v.reverse, p c := fun c hc => hv c (List.mem_reverse.mp hc)
    rw [trimBy, List.append_assoc, dropWhile_append_stop hu hfirst, List.reverse_append,
      dropWhile_append_stop hv' hlast, List.reverse_reverse]

end Text
end KineticText
