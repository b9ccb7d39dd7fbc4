import KineticText.Codeword

/-! Problems found in markup. None of them stops a compile. -/
namespace KineticText

/-- The category of a diagnostic. -/
inductive Diagnostic.Kind where
  | unclosedTag
  | unopenedTag
  | malformedParameter
  | tooManyParameters
  | regionMismatch
  deriving DecidableEq

def Diagnostic.Kind.name : Kind → Text
  | unclosedTag => "unclosed-tag".toList
  | unopenedTag => "unopened-tag".toList
  | malformedParameter => "malformed-parameter".toList
  | tooManyParameters => "too-many-parameters".toList
  | regionMismatch => "region-mismatch".toList

/-- A problem at a position of the source. -/
structure Diagnostic where
  kind : Diagnostic.Kind
  offset : Int
  message : Text
  deriving DecidableEq

/-- What can be wrong with markup. -/
inductive Fault where
  /-- `>` outside a tag. -/
  | unopened
  /-- `<` inside the tag opened at a position. -/
  | nested (opened : Int)
  /-- The source ends inside a tag. -/
  | unterminated
  /-- A parameter block of one field. -/
  | loneField (keyword : Text)
  /-- A parameter block of more fields than there are parameters. -/
  | extraFields (keyword : Text) (limit count : Nat)
  /-- A field, counted from 1, that is no number. -/
  | notNumber (keyword : Text) (field : Nat) (text : Text)
  /-- A region opened inside one of the same effect. -/
  | reopened (content : Text) (e : Effect) (opened : Int)
  /-- A region closed that is not open. -/
  | neverOpened (content : Text) (e : Effect)
  /-- A region still open at the end. -/
  | neverClosed (content : Text) (e : Effect)
  deriving DecidableEq

namespace Fault

def kind : Fault → Diagnostic.Kind
  | unopened => .unopenedTag
  | nested _ | unterminated => .unclosedTag
  | loneField _ | notNumber .. => .malformedParameter
  | extraFields .. => .tooManyParameters
  | reopened .. | neverOpened .. | neverClosed .. => .regionMismatch

def message : Fault → Text
  | unopened => "'>' without an opening '<'".toList
  | nested p =>
    "'<' inside the tag opened at character ".toList ++ Text.ofInt p ++
      "; close it with '>' first".toList
  | unterminated => "tag is never closed before the end of input".toList
  | loneField k => "'".toList ++ k ++ "' amplitude requires at least an x frequency".toList
  | extraFields k limit n =>
    "'".toList ++ k ++ "' takes at most ".toList ++ Text.ofNat limit ++ " parameters, got ".toList ++
      Text.ofNat n
  | notNumber k i t =>
    "parameter ".toList ++ Text.ofNat i ++ " of '".toList ++ k ++ "' is not a number: '".toList ++
      t ++ "'".toList
  | reopened c e p =>
    "'<".toList ++ c ++ ">' opens a ".toList ++ e.name ++
      " region while the one opened at character ".toList ++ Text.ofInt p ++
      " is still open; ignored".toList
  | neverOpened c e =>
    "'<".toList ++ c ++ ">' closes a ".toList ++ e.name ++
      " region that was never opened; ignored".toList
  | neverClosed c e =>
    "'<".toList ++ c ++ ">' opens a ".toList ++ e.name ++
      " region that is never closed; dropped".toList

def located (f : Fault) (offset : Int) : Diagnostic := ⟨f.kind, offset, f.message⟩

end Fault
end KineticText
