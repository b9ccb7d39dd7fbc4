import KineticText.Text.Basic

/-! Directive keywords and what they stand for. -/
namespace KineticText

/-- How the characters of a region move. -/
inductive Effect where
  | wave
  | jitter
  deriving DecidableEq

def Effect.name : Effect → Text
  | .wave => "wave".toList
  | .jitter => "jitter".toList

/-- What a directive's keyword resolves to. A native tag belongs to the renderer; text carries
no codeword. -/
inductive Codeword where
  | absent
  | native
  | wave
  | waveEnd
  | jitter
  | jitterEnd
  deriving DecidableEq

/-- Whether a directive opens a region or closes one. -/
inductive Role where
  | start
  | stop
  deriving DecidableEq

/-- A custom directive: its keyword and aliases, the effect of a region it opens, and the
codeword whose region it closes. -/
structure Spec where
  keyword : Text
  codeword : Codeword
  role : Role
  effect : Option Effect := none
  closes : Option Codeword := none
  description : Text := []
  aliases : List Text := []
  deriving DecidableEq

namespace Spec

/-- The keyword and the aliases. -/
def names (s : Spec) : List Text := s.keyword :: s.aliases

/-- Names match exactly, letter case included. -/
def matchesName (s : Spec) (name : Text) : Bool := s.names.contains name

end Spec
end KineticText
