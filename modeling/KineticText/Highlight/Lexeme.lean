import KineticText.Registry

/-! Cutting markup into lexemes for highlighting. -/
namespace KineticText

/-- The class of a lexeme. -/
inductive Lexeme.Kind where
  | punctuation
  | blank
  | keyword
  | number
  | native
  | stray
  | text
  deriving DecidableEq

structure Lexeme where
  kind : Lexeme.Kind
  start : Nat
  text : Text
  deriving DecidableEq

namespace Lexeme

def isBracket (c : Char) : Bool := c = '<' || c = '>'

/-- The built-in keywords, a longer one before a shorter one. -/
def keywords : List Text :=
  Registry.standard.names.mergeSort fun a b => b.length ≤ a.length

/-- A custom tag at the front of a text: brackets around a built-in keyword, white space on
both sides of it, and parameters after a colon. -/
def customTag? : Text → Option (List (Kind × Text))
  | '<' :: s =>
    let lead := s.takeWhile Text.isBlank
    let s := s.dropWhile Text.isBlank
    keywords.findSome? fun k =>
      if k.isPrefixOf s then
        let s := s.drop k.length
        let gap := s.takeWhile Text.isBlank
        let s := s.dropWhile Text.isBlank
        let params := if s.head? = some ':' then s.takeWhile (! isBracket ·) else []
        if (s.drop params.length).head? = some '>' then
          some [(.punctuation, ['<']), (.blank, lead), (.keyword, k), (.blank, gap),
            (.number, params), (.punctuation, ['>'])]
        else none
      else none
  | _ => none

/-- Any other tag without a bracket inside. -/
def nativeTag? : Text → Option (List (Kind × Text))
  | '<' :: s =>
    let name := s.takeWhile (! isBracket ·)
    if (s.drop name.length).head? = some '>' then
      some [(.punctuation, ['<']), (.native, name), (.punctuation, ['>'])]
    else none
  | _ => none

/-- The lexemes that the first applicable rule makes at the front of a text that starts with
`c`: a custom tag, a native tag, a stray bracket, a full stop, or a run of text. -/
def front (c : Char) (s : Text) : List (Kind × Text) :=
  match (customTag? (c :: s)).or (nativeTag? (c :: s)) with
  | some parts => parts.filter (·.2 ≠ [])
  | none =>
    if isBracket c then [(.stray, [c])]
    else if c = '.' then [(.punctuation, [c])]
    else [(.text, c :: s.takeWhile fun d => ! isBracket d && d ≠ '.')]

/-- Lexemes one behind the other. -/
def place (start : Nat) : List (Kind × Text) → List Lexeme
  | [] => []
  | (kind, text) :: rest => ⟨kind, start, text⟩ :: place (start + text.length) rest

def lexFrom (start : Nat) : Text → List Lexeme
  | [] => []
  | c :: s =>
    let parts := front c s
    let n := (parts.flatMap (·.2)).length
    place start parts ++ lexFrom (start + n) (s.drop (n - 1))
termination_by s => s.length
decreasing_by
  rw [List.length_drop, List.length_cons]
  omega

def lex (s : Text) : List Lexeme := lexFrom 0 s

end Lexeme
end KineticText
