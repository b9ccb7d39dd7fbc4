import KineticText.Diagnostic.Basic
import KineticText.Number.Decimal
import KineticText.Params
import KineticText.Registry

/-! The inside of a tag: a keyword and, after a colon, parameters between commas. -/
namespace KineticText

/-- What a directive means. -/
structure Command where
  codeword : Codeword
  params : Params (Option Float) := .unset
  deriving DecidableEq

namespace Command

/-- The text before the first colon. -/
def keyword (raw : Text) : Text := raw.takeWhile (· ≠ ':')

/-- The text after the first colon. -/
def block? (raw : Text) : Option Text := (raw.dropWhile (· ≠ ':')).tail?

/-- The fields of a parameter block, each with its position. -/
def positions (start : Int) : List Text → List (Int × Text)
  | [] => []
  | f :: fs => (start, f) :: positions (start + f.length + 1) fs

/-- Where a field's diagnostic points: at its first character that is not white space, or at the
start of a blank field. -/
def point (field : Int × Text) : Int := field.1 + field.2.indent

/-- The diagnostic of the `i`-th field, if it is not a number. -/
def fieldFault? (name : Text) (i : Nat) (field : Int × Text) : Option Diagnostic :=
  match number? field.2.trim with
  | some _ => none
  | none => some ((Fault.notNumber name (i + 1) field.2.trim).located (point field))

/-- Reads the fields of a custom directive's block that starts at `base`. Fields past the sixth
are reported and dropped. -/
def readFields (name : Text) (base : Int) (fields : List Text) :
    Params (Option Float) × List Diagnostic :=
  let placed := positions base (fields.take (Params.count + 1))
  let extra := (placed.drop Params.count).map fun f =>
    (Fault.extraFields name Params.count fields.length).located (point f)
  let used := placed.take Params.count
  (.ofList (used.map fun f => number? f.2.trim),
    extra ++ (used.zipIdx.filterMap fun (f, i) => fieldFault? name i f))

/-- Decodes the text between the brackets of the tag at `offset`. An unregistered keyword makes
the tag native, whatever follows it; a block of a single field leaves every parameter unset. -/
def decode (r : Registry) (raw : Text) (offset : Int) : Command × List Diagnostic :=
  let head := keyword raw
  let name := head.trim
  match r.lookup name, block? raw with
  | none, _ => ({ codeword := .native }, [])
  | some c, none => ({ codeword := c }, [])
  | some c, some block =>
    let base := offset + 1 + head.length + 1
    let fields := block.splitOn ','
    if fields.length < 2 then
      let place := if block.all Text.isBlank then point (offset + 1, head) else point (base, block)
      ({ codeword := c }, [(Fault.loneField name).located place])
    else
      let (params, faults) := readFields name base fields
      ({ codeword := c, params }, faults)

end Command
end KineticText
