import KineticText.Settings.Basic
import KineticText.Value.Basic

/-! The fields of the settings, and how they are checked. -/
namespace KineticText.Settings

/-- What is wrong with a value. -/
inductive Complaint where
  | notNumber
  | notNumberText
  | negative
  | notBool
  | notBoolValue
  | notText
  | tooShort
  | tooLong
  | bracket
  | notInteger
  | notIntegerText
  | integerTooLarge
  | notFinite
  | fraction
  | unknownField
  deriving DecidableEq

namespace Complaint

def code : Complaint → Text
  | notNumber => "float_type".toList
  | notNumberText => "float_parsing".toList
  | negative => "greater_than_equal".toList
  | notBool => "bool_type".toList
  | notBoolValue => "bool_parsing".toList
  | notText => "string_type".toList
  | tooShort => "string_too_short".toList
  | tooLong => "string_too_long".toList
  | bracket => "value_error".toList
  | notInteger => "int_type".toList
  | notIntegerText => "int_parsing".toList
  | integerTooLarge => "int_parsing_size".toList
  | notFinite => "finite_number".toList
  | fraction => "int_from_float".toList
  | unknownField => "extra_forbidden".toList

def message : Complaint → Text
  | notNumber => "Input should be a valid number".toList
  | notNumberText =>
    "Input should be a valid number, unable to parse string as a number".toList
  | negative => "Input should be greater than or equal to 0".toList
  | notBool => "Input should be a valid boolean".toList
  | notBoolValue => "Input should be a valid boolean, unable to interpret input".toList
  | notText => "Input should be a valid string".toList
  | tooShort => "String should have at least 1 character".toList
  | tooLong => "String should have at most 1 character".toList
  | bracket => "Value error, pause_char cannot be a tag bracket".toList
  | notInteger => "Input should be a valid integer".toList
  | notIntegerText =>
    "Input should be a valid integer, unable to parse string as an integer".toList
  | integerTooLarge =>
    "Unable to parse input string as an integer, exceeded maximum size".toList
  | notFinite => "Input should be a finite number".toList
  | fraction => "Input should be a valid integer, got a number with a fractional part".toList
  | unknownField => "Extra inputs are not permitted".toList

end Complaint

/-- A complaint about a field. -/
structure Problem where
  field : Text
  complaint : Complaint
  deriving DecidableEq

/-- A value, or every problem on the way to it. -/
inductive Checked (α : Type) where
  | accepted (a : α)
  | refused (problems : List Problem)
  deriving DecidableEq

/-- Applies a function to a value; the problems of both count. -/
def Checked.app {α β : Type} : Checked (α → β) → Checked α → Checked β
  | accepted f, accepted a => accepted (f a)
  | accepted _, refused ps => refused ps
  | refused ps, accepted _ => refused ps
  | refused ps, refused qs => refused (ps ++ qs)

instance : Applicative Checked where
  pure := Checked.accepted
  seq f x := f.app (x ())

/-- Text without letter case, for names and for words; both are ASCII. -/
def lowered (s : Text) : Text := s.map Char.toLower

/-- The values given by name, and the variables of the environment. -/
structure Given where
  values : List (Text × Value)
  environment : List (Text × Text) := []

namespace Given

/-- The names of the settings. -/
def fields : List Text :=
  ["curr_amplitude", "curr_frequency_x", "curr_frequency_y", "prev_amplitude",
    "prev_frequency_x", "prev_frequency_y", "typewriter_enabled", "letter_wait", "pause_wait",
    "pause_char", "verbosity"].map String.toList

/-- Why an environment does not hold a variable. -/
inductive VariableFault where
  | nullCharacter
  | equalsSign
  | noName
  deriving DecidableEq

/-- What is said of a fault; a variable without a name speaks for itself. -/
def VariableFault.message? : VariableFault → Option Text
  | nullCharacter => some "embedded null byte".toList
  | equalsSign => some "illegal environment variable name".toList
  | noName => none

def variableFault? : Text × Text → Option VariableFault
  | (name, value) =>
    if (name ++ value).contains '\x00' then some .nullCharacter
    else if name.contains '=' then some .equalsSign
    else if name = [] then some .noName
    else none

/-- Why there are no settings. -/
inductive Refusal where
  | variable (f : VariableFault)
  | problems (ps : List Problem)
  deriving DecidableEq

end Given

/-- A pause character: any but the brackets of tags. -/
def readPauseChar : Value → Except Complaint Char
  | .text [] => .error .tooShort
  | .text [c] => if c = '<' ∨ c = '>' then .error .bracket else .ok c
  | .text _ => .error .tooLong
  | _ => .error .notText

/-- What a library does in reading settings: how it takes a value for a number, an integer or a truth
value, which value it finds for a field, and which of the given names it finds no field for. -/
structure Reader where
  number : Value → Except Complaint Float
  integer : Value → Except Complaint Int
  bool : Value → Except Complaint Bool
  value? : Given → Text → Option Value
  others : Given → List Text

namespace Reader

variable (p : Reader)

/-- A time to wait: a number that is not below zero, which no NaN is. -/
def wait (v : Value) : Except Complaint Float := do
  let x ← p.number v
  if 0 ≤ x then return x else throw .negative

def verbosity (v : Value) : Except Complaint Nat := do
  let n ← p.integer v
  if 0 ≤ n then return n.toNat else throw .negative

variable (g : Given)

/-- Reads a field, which has its default if nothing is given for it. -/
def field {α : Type} (name : String) (read : Value → Except Complaint α) (default : α) :
    Checked α :=
  match p.value? g name.toList with
  | none => .accepted default
  | some v =>
    match read v with
    | .ok a => .accepted a
    | .error c => .refused [⟨name.toList, c⟩]

/-- No value may be given under any other name. -/
def noOther : Checked Unit :=
  match p.others g with
  | [] => .accepted ()
  | names => .refused (names.map (⟨·, .unknownField⟩))

/-- Reads all settings. Problems stand in the order of the fields, unknown names last. -/
def read : Checked Settings :=
  let d : Settings := {}
  let make amplitude frequencyX frequencyY scale phaseX phaseY typewriter letterWait pauseWait
      pauseChar verbosity (_ : Unit) : Settings :=
    { defaults := ⟨amplitude, frequencyX, frequencyY, scale, phaseX, phaseY⟩
      typewriter, letterWait, pauseWait, pauseChar, verbosity }
  make <$> p.field g "curr_amplitude" p.number d.defaults.amplitude
    <*> p.field g "curr_frequency_x" p.number d.defaults.frequencyX
    <*> p.field g "curr_frequency_y" p.number d.defaults.frequencyY
    <*> p.field g "prev_amplitude" p.number d.defaults.scale
    <*> p.field g "prev_frequency_x" p.number d.defaults.phaseX
    <*> p.field g "prev_frequency_y" p.number d.defaults.phaseY
    <*> p.field g "typewriter_enabled" p.bool d.typewriter
    <*> p.field g "letter_wait" p.wait d.letterWait
    <*> p.field g "pause_wait" p.wait d.pauseWait
    <*> p.field g "pause_char" readPauseChar d.pauseChar
    <*> p.field g "verbosity" p.verbosity d.verbosity
    <*> p.noOther g

/-- The settings of the given values and variables. Variables that no environment holds come
before all else. -/
def settings : Except Given.Refusal Settings :=
  match g.environment.findSome? Given.variableFault?, p.read g with
  | some f, _ => .error (.variable f)
  | none, .accepted s => .ok s
  | none, .refused ps => .error (.problems ps)

end Reader
end KineticText.Settings
