import KineticText.Proofs.Text.Runs

/-! Where a character stands in a text. -/
namespace KineticText.Text

variable {x : Char} {s t w : Text}

/-- A text without the mark `x` is what comes before the first `x`, or before the end. -/
theorem takeWhile_ne_append (hw : x ∉ w) (hs : s = [] ∨ ∃ t, s = x :: t) :
    (w ++ s).takeWhile (· ≠ x) = w := by
  apply takeWhile_append_stop
  · intro c hc
    simpa using fun he : c = x => hw (he ▸ hc)
  · rcases hs with rfl | ⟨t, rfl⟩ <;> simp

/-- Behind the characters before the first mark comes the mark, or nothing. -/
theorem dropWhile_ne_cases (x : Char) (s : Text) :
    s.dropWhile (· ≠ x) = [] ∨ ∃ t, s.dropWhile (· ≠ x) = x :: t := by
  induction s with
  | nil => exact .inl rfl
  | cons c s ih =>
    by_cases hc : c = x
    · exact .inr ⟨s, by simp [hc]⟩
    · simpa [hc] using ih

/-- The positions of `x` in a text whose first character is at `start`, in ascending order. -/
def positions (x : Char) (start : Nat) (s : Text) : List Nat :=
  (s.zipIdx start).filterMap fun c => if c.1 = x then some c.2 else none

theorem positions_append {start : Nat} :
    positions x start (s ++ t) = positions x start s ++ positions x (start + s.length) t := by
  rw [positions, List.zipIdx_append, List.filterMap_append]
  rfl

theorem positions_add (x : Char) (start n : Nat) (s : Text) :
    positions x (start + n) s = (positions x start s).map (· + n) := by
  rw [positions, positions, List.map_filterMap, Nat.add_comm start n,
    ← List.map_snd_add_zipIdx_eq_zipIdx, List.filterMap_map]
  congr 1
  funext c
  by_cases hc : c.1 = x <;> simp [hc]

theorem positions_singleton {c : Char} {start : Nat} :
    positions x start [c] = if c = x then [start] else [] := by
  by_cases h : c = x <;> simp [positions, h]

theorem positions_of_notMem {start : Nat} (h : x ∉ s) : positions x start s = [] := by
  rw [positions, List.filterMap_eq_nil_iff]
  intro c hc
  have hne : c.1 ≠ x := fun he => h (he ▸ List.fst_mem_of_mem_zipIdx hc)
  simp [hne]

theorem positions_eq_nil_iff {start : Nat} : positions x start s = [] ↔ x ∉ s := by
  constructor
  · intro h hx
    obtain ⟨s, t, rfl⟩ := List.append_of_mem hx
    rw [List.append_cons, positions_append, positions_append, positions_singleton] at h
    simp at h
  · exact positions_of_notMem

theorem length_positions {start : Nat} : (positions x start s).length = s.count x := by
  induction s generalizing start with
  | nil => rfl
  | cons c s ih =>
    rw [← List.singleton_append, positions_append, positions_singleton, List.length_append, ih,
      List.count_append, List.count_singleton]
    by_cases hc : c = x <;> simp [hc]

theorem mem_positions_bounds {start i : Nat} (h : i ∈ positions x start s) :
    start ≤ i ∧ i < start + s.length := by
  obtain ⟨c, hc, hi⟩ := List.mem_filterMap.mp h
  obtain ⟨-, rfl⟩ : c.1 = x ∧ c.2 = i := by simpa using hi
  obtain ⟨hstart, hend, -⟩ := List.mem_zipIdx hc
  exact ⟨hstart, hend⟩

theorem pairwise_positions (x : Char) (start : Nat) (s : Text) :
    (positions x start s).Pairwise (· < ·) := by
  induction s generalizing start with
  | nil => exact .nil
  | cons c s ih =>
    rw [← List.singleton_append, positions_append, positions_singleton]
    refine List.pairwise_append.mpr ⟨?_, ih _, ?_⟩
    · split
      · exact List.pairwise_singleton _ _
      · exact .nil
    · intro i hi j hj
      have hc : i = start := by
        split at hi <;> simp_all
      obtain ⟨hj, -⟩ := mem_positions_bounds hj
      simp only [List.length_singleton] at hj
      omega

/-- The positions of `x` in a text from `a` on and before `b`, in ascending order. -/
def positionsBetween (x : Char) (s : Text) (a b : Int) : List Nat :=
  (positions x 0 s).filter fun i : Nat => a ≤ i ∧ i < b

theorem positionsBetween_eq (x : Char) (u s v : Text) {n : Nat} (hn : u.length = n) :
    positionsBetween x (u ++ s ++ v) n (n + s.length) = positions x n s := by
  have hu : ∀ i ∈ positions x 0 u, ¬ ((n : Int) ≤ i ∧ (i : Int) < n + s.length) := by
    intro i hi
    have hi := mem_positions_bounds hi
    omega
  have hs : ∀ i ∈ positions x n s, (n : Int) ≤ i ∧ (i : Int) < n + s.length := by
    intro i hi
    have hi := mem_positions_bounds hi
    omega
  have hv : ∀ i ∈ positions x (n + s.length) v, ¬ ((n : Int) ≤ i ∧ (i : Int) < n + s.length) := by
    intro i hi
    have hi := mem_positions_bounds hi
    omega
  rw [positionsBetween, positions_append, positions_append, Nat.zero_add, List.length_append, hn,
    Nat.zero_add, List.filter_append, List.filter_append,
    List.filter_eq_nil_iff.mpr (by simpa using hu), List.filter_eq_self.mpr (by simpa using hs),
    List.filter_eq_nil_iff.mpr (by simpa using hv), List.nil_append, List.append_nil]

end KineticText.Text
