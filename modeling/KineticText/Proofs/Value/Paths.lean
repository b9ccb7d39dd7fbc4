import KineticText.Proofs.Text.Digits
import KineticText.Proofs.Text.Runs
import KineticText.Value.Path

/-! A written path is read back step by step. -/
namespace KineticText.Path

variable {s t name key : Text} {i : Nat} {step : Step} {steps done : List Step}

/-! ### Writing -/

def Step.written : Step → Text
  | part name => '.' :: name
  | item i => '[' :: (Text.ofNat i ++ [']'])
  | entry key => '[' :: (key ++ [']'])

/-- The text is a name: it has no step in it. -/
structure IsName (s : Text) : Prop where
  ne_nil : s ≠ []
  plain : ∀ c ∈ s, c ≠ '.' ∧ c ≠ '['

/-- The text is no number, so that it stands for itself. -/
def NoNumber (s : Text) : Prop := position? s = .ok none

/-- The writing of the step stands for the step. -/
def Step.Writable : Step → Prop
  | part name => IsName name
  | item i => i < Text.countBound
  | entry key => key ≠ [] ∧ ']' ∉ key ∧ NoNumber key

/-- The text is at an end, or at the next step. -/
def AtStep (s : Text) : Prop := ∀ c ∈ s.head?, c = '.' ∨ c = '['

theorem atStep_written (step : Step) (s : Text) : AtStep (step.written ++ s) := by
  cases step with
  | part | item | entry => simp [AtStep, Step.written]

theorem atStep_flatMap (steps : List Step) : AtStep (steps.flatMap Step.written) := by
  cases steps with
  | nil => simp [AtStep]
  | cons step steps => exact atStep_written step _

/-! ### Reading -/

theorem position?_ofNat (h : i < Text.countBound) : position? (Text.ofNat i) = .ok (some i) := by
  have hdigits : (Text.ofNat i).takeWhile Text.isDigit = Text.ofNat i :=
    List.takeWhile_eq_self_iff.mpr fun _ => Text.isDigit_of_mem_ofNat
  simp only [position?, hdigits, Text.digitsValue_ofNat]
  rw [if_neg (Nat.not_le.mpr h), if_pos ⟨Text.ofNat_ne_nil i, trivial⟩]

theorem takeWhile_name (h : IsName name) (ht : AtStep t) :
    (name ++ t).takeWhile (fun c => c ≠ '.' ∧ c ≠ '[') = name := by
  apply Text.takeWhile_append_stop
  · intro c hc
    exact decide_eq_true (h.plain c hc)
  · intro c hc
    rcases ht c hc with rfl | rfl <;> decide

theorem takeWhile_key (h : ']' ∉ key) (t : Text) :
    (key ++ ']' :: t).takeWhile (· ≠ ']') = key := by
  apply Text.takeWhile_append_stop
  · intro c hc
    simp only [ne_eq, decide_not, Bool.not_eq_true', decide_eq_false_iff_not]
    rintro rfl
    exact h hc
  · simp

/-- A key in brackets is a step, by its number if it is one. -/
theorem stepsFrom_bracket (h : key ≠ []) (hkey : ']' ∉ key) {i : Option Nat}
    (hi : position? key = .ok i) (done : List Step) (t : Text) :
    stepsFrom done ('[' :: (key ++ ']' :: t)) = stepsFrom (i.elim (.entry key) .item :: done) t := by
  rw [stepsFrom]
  simp only [takeWhile_key hkey, hi, List.drop_left', if_neg h]
  rw [← List.drop_drop, List.drop_left' rfl]
  rfl

theorem stepsFrom_written (h : step.Writable) (ht : AtStep t) (done : List Step) :
    stepsFrom done (step.written ++ t) = stepsFrom (step :: done) t := by
  cases step with
  | part name =>
    rw [Step.written, List.cons_append, stepsFrom, takeWhile_name h ht]
    simp only [if_neg h.ne_nil, List.drop_left' rfl]
  | item i =>
    have hkey : ']' ∉ Text.ofNat i := fun hc => absurd (Text.isDigit_of_mem_ofNat hc) (by decide)
    rw [Step.written, List.cons_append, List.append_assoc]
    exact stepsFrom_bracket (Text.ofNat_ne_nil i) hkey (position?_ofNat h) done t
  | entry key =>
    obtain ⟨hne, hkey, hnumber⟩ := h
    rw [Step.written, List.cons_append, List.append_assoc]
    exact stepsFrom_bracket hne hkey hnumber done t

theorem stepsFrom_flatMap (h : ∀ step ∈ steps, step.Writable) (done : List Step) :
    stepsFrom done (steps.flatMap Step.written) = (done.reverse ++ steps, none) := by
  induction steps generalizing done with
  | nil => simp [stepsFrom]
  | cons step steps ih =>
    rw [List.flatMap_cons, stepsFrom_written (h step (by simp)) (atStep_flatMap steps),
      ih (fun x hx => h x (by simp [hx]))]
    simp

/-- A path that is written from a name and steps is read as they are. -/
theorem parse_written (hname : IsName name) (hnumber : NoNumber name)
    (h : ∀ step ∈ steps, step.Writable) :
    parse (name ++ steps.flatMap Step.written) = .ok ⟨.named name, steps, none⟩ := by
  simp only [parse, takeWhile_name hname (atStep_flatMap steps), List.drop_left' rfl,
    stepsFrom_flatMap h]
  rw [hnumber]
  simp [bind, Except.bind, pure, Except.pure, hname.ne_nil]

end KineticText.Path
