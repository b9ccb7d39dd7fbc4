import KineticText.Text.Basic

/-! Notes that the library leaves for its log. -/
namespace KineticText

/-- Where a note is written: a channel and a routine of it. -/
structure Origin where
  channel : Text
  routine : Text
  deriving DecidableEq

/-- A note shows when the verbosity reaches its level: 1 for diagnostics, 2 for progress,
3 for traces. -/
structure Note where
  level : Int
  origin : Origin
  message : Text
  deriving DecidableEq

/-- A computation that leaves notes and may fail. Whether a note is written is decided where it
is left, by the verbosity. -/
def Journal (ε α : Type) : Type := Int → List Note × Except ε α

namespace Journal

variable {ε α β : Type}

protected def pure (a : α) : Journal ε α := fun _ => ([], .ok a)

/-- The notes of a failed step stay, and no later step runs. -/
protected def bind (m : Journal ε α) (f : α → Journal ε β) : Journal ε β := fun v =>
  match m v with
  | (notes, .ok a) => let (more, b) := f a v; (notes ++ more, b)
  | (notes, .error e) => (notes, .error e)

instance : Monad (Journal ε) where
  pure := Journal.pure
  bind := Journal.bind

def ofExcept (x : Except ε α) : Journal ε α := fun _ => ([], x)

/-- Leaves a note. -/
def note (level : Int) (origin : Origin) (message : Text) : Journal ε Unit := fun v =>
  (if level ≤ v then [⟨level, origin, message⟩] else [], .ok ())

/-- Runs `m` at a verbosity of `level` and above only. -/
def atLeast (level : Int) (m : Journal ε Unit) : Journal ε Unit := fun v =>
  if level ≤ v then m v else ([], .ok ())

def notes (m : Journal ε α) (v : Int) : List Note := (m v).1

def result (m : Journal ε α) (v : Int) : Except ε α := (m v).2

/-- Runs a computation at the verbosity in force, if there is one, and hands on its notes. -/
def deliver {ω : Type} (write : Note → List ω) (verbosity : Option Int) (m : Journal ε α) :
    List ω × Except ε α :=
  match verbosity with
  | some v => ((m.notes v).flatMap write, m.result v)
  | none => ([], m.result 0)

end Journal
end KineticText
