import KineticText.Attempt
import KineticText.Codeword

/-! The registry of custom directives. -/
namespace KineticText

/-- The registered names in order of registration, each with its codeword, and the registered
specs, newest first: a codeword's latest spec describes it. -/
structure Registry where
  entries : List (Text × Codeword)
  specs : List Spec

namespace Registry

variable (r : Registry)

def names : List Text := r.entries.map (·.1)

/-- The codeword of a registered name. -/
def lookup (name : Text) : Option Codeword := r.entries.lookup name

/-- The latest spec of a codeword. -/
def spec? (c : Codeword) : Option Spec := r.specs.find? (·.codeword = c)

/-- Why a spec is not registered. -/
inductive Rejection where
  | missingEffect (keyword : Text)
  | closesNoStart (keyword : Text)
  | nameTaken (name : Text)
  deriving DecidableEq

def Rejection.message : Rejection → Text
  | missingEffect k => "Start codeword '".toList ++ k ++ "' needs an animation kind".toList
  | closesNoStart k =>
    "End codeword '".toList ++ k ++ "' must close a registered start codeword".toList
  | nameTaken k => "Codeword keyword already registered: '".toList ++ k ++ "'".toList

/-- The closed codeword's latest spec is one that opens regions. -/
def closesStart (s : Spec) : Bool :=
  ((s.closes.bind r.spec?).map (·.role)) = some .start

/-- Registering works on a registry and may be rejected on the way. -/
abbrev Registering : Type → Type := Attempt Registry Rejection

/-- A start needs an effect, and a stop a start to close. -/
def checkRole (s : Spec) : Registering Unit := do
  if s.role = .start ∧ s.effect = none then throw (.missingEffect s.keyword)
  if s.role = .stop ∧ ¬ (← get).closesStart s then throw (.closesNoStart s.keyword)

def checkName (name : Text) : Registering Unit := do
  if ((← get).lookup name).isSome then throw (.nameTaken name)

/-- Gives a name to a codeword. A name that is there stays in its place. -/
def enter (c : Codeword) (name : Text) : Registry :=
  { r with
    entries := if r.names.contains name
      then r.entries.map fun x => (x.1, if x.1 = name then c else x.2)
      else r.entries ++ [(name, c)] }

/-- Puts a spec in force for its codeword. -/
def describe (s : Spec) : Registry := { r with specs := s :: r.specs }

/-- Enters a spec under each of its names, after all checks. -/
def registering (s : Spec) : Registering Unit := do
  checkRole s
  forM s.names checkName
  forM s.names fun name => modify (·.enter s.codeword name)
  modify (·.describe s)

/-- Why a spec is not registered, and the registry from then on. -/
def register (s : Spec) : Except Rejection Unit × Registry := Attempt.outcome (registering s) r

/-- The registry after an attempt to register a spec. -/
def offer (s : Spec) : Registry := (r.register s).2

/-- The built-in directives. -/
def builtin : List Spec := [
  { keyword := "wave".toList, codeword := .wave, role := .start, effect := some .wave,
    description := "Start a sinusoidal wave over the following characters".toList },
  { keyword := "/wave".toList, codeword := .waveEnd, role := .stop, closes := some .wave,
    description := "End the open wave region".toList, aliases := ["wave-end".toList] },
  { keyword := "jitter".toList, codeword := .jitter, role := .start, effect := some .jitter,
    description := "Start random jitter over the following characters".toList },
  { keyword := "/jitter".toList, codeword := .jitterEnd, role := .stop, closes := some .jitter,
    description := "End the open jitter region".toList, aliases := ["jitter-end".toList] }]

/-- A fresh registry holds the built-in directives. -/
def standard : Registry := builtin.foldl offer ⟨[], []⟩

/-- What a directive with a given codeword does to the regions. -/
inductive Action where
  /-- No spec: the directive is dropped. -/
  | pass
  | opens (e : Effect)
  | closes (e : Effect)
  /-- The spec leaves no effect to open or close. -/
  | undefined
  deriving DecidableEq

/-- A closing directive takes its effect from the present spec of the codeword it closes. -/
def action (c : Codeword) : Action :=
  match r.spec? c with
  | none => .pass
  | some s =>
    match s.role with
    | .start => s.effect.elim .undefined .opens
    | .stop => ((s.closes.bind r.spec?).bind (·.effect)).elim .undefined .closes

end Registry
end KineticText
