import KineticText.Text.Digit
import KineticText.Value.Basic

/-! Paths: the name of a value, and the steps from it to a value inside. -/
namespace KineticText

/-- A step into a value. -/
inductive Path.Step where
  | part (name : Text)
  | item (i : Nat)
  | entry (key : Text)
  deriving DecidableEq

/-- What is wrong with the writing of a path. -/
inductive Path.Fault where
  | tooManyDigits
  | emptyStep
  | unclosedBracket
  /-- A closing bracket with something else than a step after it. -/
  | afterBracket
  deriving DecidableEq

/-- The value that a path starts from. -/
inductive Path.Root where
  | named (name : Text)
  /-- No name, or a number for it. -/
  | numbered
  deriving DecidableEq

/-- A path is followed up to its first fault. -/
structure Path where
  root : Path.Root
  steps : List Path.Step
  fault : Option Path.Fault
  deriving DecidableEq

namespace Path

/-- The number that a text is, if it is one. Digits at its start that make up no position are a
fault whatever follows them. -/
def position? (s : Text) : Except Fault (Option Nat) :=
  let digits := s.takeWhile Text.isDigit
  let n := Text.digitsValue digits
  if Text.countBound ≤ n then .error .tooManyDigits
  else .ok (if s ≠ [] ∧ digits = s then some n else none)

/-- The steps of a path, after those in `done`, newest first: parts after points, and items and
entries in brackets. -/
def stepsFrom (done : List Step) : Text → List Step × Option Fault
  | [] => (done.reverse, none)
  | '.' :: s =>
    let name := s.takeWhile fun c => c ≠ '.' ∧ c ≠ '['
    if name = [] then (done.reverse, some .emptyStep)
    else stepsFrom (.part name :: done) (s.drop name.length)
  | '[' :: s =>
    let key := s.takeWhile (· ≠ ']')
    match s.drop key.length, position? key with
    | [], _ => (done.reverse, some .unclosedBracket)
    | _, .error e => (done.reverse, some e)
    | _, .ok i =>
      if key = [] then (done.reverse, some .emptyStep)
      else stepsFrom (i.elim (.entry key) .item :: done) (s.drop (key.length + 1))
  | _ => (done.reverse, some .afterBracket)
termination_by s => s.length
decreasing_by
  · rw [List.length_drop, List.length_cons]
    omega
  · rw [List.length_drop, List.length_cons]
    omega

/-- Reads a path. A fault of its root leaves nothing to follow. -/
def parse (s : Text) : Except Fault Path := do
  let name := s.takeWhile fun c => c ≠ '.' ∧ c ≠ '['
  let i ← position? name
  let (steps, fault) := stepsFrom [] (s.drop name.length)
  return ⟨if name = [] ∨ i.isSome then .numbered else .named name, steps, fault⟩

end Path

/-- Why a step does not lead to a value. -/
inductive Value.Missing where
  | part
  /-- The value has no items, or no entries. -/
  | place
  | item
  | entry
  deriving DecidableEq

namespace Value

/-- The parts of an integer as a fraction, and as a complex number. -/
def integerParts (n : Int) : List (Text × Value) :=
  [("real".toList, .integer n), ("imag".toList, .integer 0), ("numerator".toList, .integer n),
    ("denominator".toList, .integer 1)]

def parts : Value → List (Text × Value)
  | integer n => integerParts n
  | bool b => integerParts (if b then 1 else 0)
  | number x => [("real".toList, .number x), ("imag".toList, .number 0)]
  | null | text _ | list _ | record _ => []

/-- The items of a text are its characters. -/
def items? : Value → Option (List Value)
  | text s => some (s.map fun c => .text [c])
  | list vs => some vs
  | _ => none

/-- Takes a step into a value. A record has entries only. -/
def step (v : Value) : Path.Step → Except Missing Value
  | .part name => ((v.parts.lookup name).map .ok).getD (.error .part)
  | .item i =>
    match v, v.items? with
    | record _, _ => .error .entry
    | _, some vs => (vs[i]?.map .ok).getD (.error .item)
    | _, none => .error .place
  | .entry key =>
    match v with
    | record fields => ((fields.lookup key).map .ok).getD (.error .entry)
    | _ => .error .place

end Value
end KineticText
