import KineticText.Log.Note

/-! What computations that leave notes give, and which notes they leave at each verbosity. -/
namespace KineticText.Journal

variable {ε α β : Type} {m : Journal ε α} {f : α → Journal ε β} {v : Int}

/-! ### Results -/

theorem result_bind (m : Journal ε α) (f : α → Journal ε β) :
    (m >>= f).result v = (m.result v).bind fun a => (f a).result v := by
  change (Journal.bind m f v).2 = _
  unfold Journal.bind result
  rcases m v with ⟨notes, a | a⟩ <;> rfl

theorem result_ofExcept (x : Except ε α) : (ofExcept x).result v = x := rfl

theorem result_note (level : Int) (origin : Origin) (message : Text) :
    (note level origin message : Journal ε Unit).result v = .ok () := rfl

theorem result_atLeast (level : Int) {m : Journal ε Unit} (h : m.result v = .ok ()) :
    (atLeast level m).result v = .ok () := by
  unfold result at h ⊢
  by_cases hv : level ≤ v
  · simpa [atLeast, hv] using h
  · simp [atLeast, hv]

theorem result_forM {f : α → Journal ε Unit} (h : ∀ a, (f a).result v = .ok ()) (as : List α) :
    (as.forM f).result v = .ok () := by
  induction as with
  | nil => rfl
  | cons a as ih =>
    change (f a >>= fun _ => as.forM f).result v = .ok ()
    rw [result_bind, h a]
    exact ih

/-! ### Notes -/

/-- The notes of a step that fails are the last ones. -/
theorem notes_bind (m : Journal ε α) (f : α → Journal ε β) :
    (m >>= f).notes v = m.notes v ++ match m.result v with
      | .ok a => (f a).notes v
      | .error _ => [] := by
  change (Journal.bind m f v).1 = _
  unfold Journal.bind notes result
  rcases m v with ⟨notes, a | a⟩
  · exact (List.append_nil _).symm
  · rfl

theorem notes_bind_of_ok {a : α} (h : m.result v = .ok a) :
    (m >>= f).notes v = m.notes v ++ (f a).notes v := by
  rw [notes_bind, h]

theorem notes_forM {f : α → Journal ε Unit} (h : ∀ a, (f a).result v = .ok ()) (as : List α) :
    (as.forM f).notes v = as.flatMap fun a => (f a).notes v := by
  induction as with
  | nil => rfl
  | cons a as ih =>
    change (f a >>= fun _ => as.forM f).notes v = _
    rw [notes_bind_of_ok (h a), List.flatMap_cons, ← ih]

theorem notes_note_of_le {level : Int} (h : level ≤ v) (origin : Origin) (message : Text) :
    (note level origin message : Journal ε Unit).notes v = [⟨level, origin, message⟩] := by
  simp [notes, note, h]

theorem notes_atLeast_of_le {level : Int} (h : level ≤ v) (m : Journal ε Unit) :
    (atLeast level m).notes v = m.notes v := by
  simp [notes, atLeast, h]

/-! ### The verbosity as a filter -/

/-- The notes are those left at the verbosity `top`, without the ones of too high a level. Nothing
else depends on the verbosity. -/
structure Filtered (top : Int) (m : Journal ε α) : Prop where
  result : ∀ v, m.result v = m.result top
  notes : ∀ v, m.notes v = (m.notes top).filter (·.level ≤ v)

variable {top level : Int}

theorem filtered_pure (a : α) : Filtered top (pure a : Journal ε α) :=
  ⟨fun _ => rfl, fun _ => rfl⟩

theorem filtered_ofExcept (x : Except ε α) : Filtered top (ofExcept x) :=
  ⟨fun _ => rfl, fun _ => rfl⟩

theorem filtered_note (h : level ≤ top) (origin : Origin) (message : Text) :
    Filtered top (note level origin message : Journal ε Unit) := by
  refine ⟨fun _ => rfl, ?_⟩
  intro v
  rw [notes_note_of_le h]
  by_cases hv : level ≤ v <;> simp [notes, note, hv]

theorem Filtered.bind (hm : Filtered top m) (hf : ∀ a, Filtered top (f a)) :
    Filtered top (m >>= f) := by
  constructor
  · intro v
    rw [result_bind, result_bind, hm.result v]
    cases m.result top with
    | error e => rfl
    | ok a => exact (hf a).result v
  · intro v
    rw [notes_bind, notes_bind, hm.result v, hm.notes v, List.filter_append]
    cases m.result top with
    | error e => rfl
    | ok a => exact congrArg (_ ++ ·) ((hf a).notes v)

theorem filtered_forM {f : α → Journal ε Unit} (h : ∀ a, Filtered top (f a)) (as : List α) :
    Filtered top (as.forM f) := by
  induction as with
  | nil => exact filtered_pure ()
  | cons a as ih => exact (h a).bind fun _ => ih

/-- A guard that lets through what its notes need anyway makes no difference. -/
theorem Filtered.atLeast {m : Journal ε Unit} (hm : Filtered top m) (hl : level ≤ top)
    (hr : m.result top = .ok ()) (hn : ∀ n ∈ m.notes top, level ≤ n.level) :
    Filtered top (atLeast level m) := by
  constructor
  · intro v
    rw [result_atLeast level ((hm.result v).trans hr), result_atLeast level hr]
  · intro v
    rw [notes_atLeast_of_le hl]
    by_cases hv : level ≤ v
    · rw [notes_atLeast_of_le hv, hm.notes v]
    · have hnone : (m.notes top).filter (·.level ≤ v) = [] := by
        rw [List.filter_eq_nil_iff]
        intro n hmem
        have hle := hn n hmem
        simp only [decide_eq_true_eq]
        omega
      rw [hnone]
      simp [Journal.notes, Journal.atLeast, hv]

end KineticText.Journal
