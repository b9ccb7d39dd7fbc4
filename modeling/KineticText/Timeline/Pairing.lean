import KineticText.Diagnostic.Basic
import KineticText.Log.Note
import KineticText.Registry
import KineticText.Timeline.Region
import KineticText.Token.Basic

/-! Pairing of the directives that open and close regions. -/
namespace KineticText

/-- The channel of a compile's notes. -/
def compilerChannel : Text := "textmotion.lib.compiler".toList

/-- Why tokens have no timeline: a directive whose spec names no effect. -/
inductive CompileError where
  | undefinedEffect (c : Codeword)
  deriving DecidableEq

/-- A region that is open: the directive that opened it, the visible characters before it, and
its parameters. -/
structure Opening where
  effect : Effect
  token : Token
  start : Nat
  params : Params (Option Float)
  deriving DecidableEq

/-- What pairing finds, in the order of the tokens: a region opens, one is closed by a directive,
or a directive has no partner. -/
inductive Finding where
  | opened (o : Opening)
  | closed (o : Opening) (closer : Token) (stop : Nat)
  | mismatch (t : Token) (f : Fault)
  deriving DecidableEq

namespace Finding

def region? : Finding → Option Region
  | closed o _ stop => some ⟨some o.effect, o.start, stop, o.params⟩
  | _ => none

def diagnostic? : Finding → Option Diagnostic
  | mismatch t f => some (f.located t.offset)
  | _ => none

/-- Notes that a region opens, or that one closes. -/
def trace : Finding → Journal CompileError Unit
  | opened o => note <|
    "Opened ".toList ++ o.effect.name ++ " region at index ".toList ++ Text.ofNat o.start
  | closed o _ stop => note <|
    "Closed ".toList ++ o.effect.name ++ " region [".toList ++ Text.ofNat o.start ++
      ", ".toList ++ Text.ofNat stop ++ ")".toList
  | mismatch .. => return
where
  note (message : Text) : Journal CompileError Unit :=
    Journal.note 3 ⟨compilerChannel, "compile".toList⟩ message

/-- Notes a finding before those that come after it. -/
def followedBy (f : Finding) (rest : Journal CompileError (List Finding)) :
    Journal CompileError (List Finding) := do
  f.trace
  return f :: (← rest)

end Finding

/-- A region that is open when the tokens end. -/
def Opening.leftOpen (o : Opening) : Finding :=
  .mismatch o.token (.neverClosed o.token.content o.effect)

/-- Walks the tokens with the open regions, oldest first, and the number of visible characters
passed. Of each effect one region at most is open: a second opening is reported and ignored, and
so is a closing without an opening. -/
def walk (r : Registry) (defaults : Params (Option Float)) (pending : List Opening)
    (passed : Nat) : List Token → Journal CompileError (List Finding)
  | [] => return pending.map Opening.leftOpen
  | t :: ts =>
    let next := passed + t.visible.length
    if t.isDirective ∧ ¬ t.isNative then
      match r.action t.codeword with
      | .pass => walk r defaults pending next ts
      | .undefined => Journal.ofExcept (.error (.undefinedEffect t.codeword))
      | .opens e =>
        match pending.find? (·.effect = e) with
        | some o =>
          (Finding.mismatch t (.reopened t.content e o.token.offset)).followedBy <|
            walk r defaults pending next ts
        | none =>
          let o : Opening := ⟨e, t, passed, t.params.withDefaults defaults⟩
          (Finding.opened o).followedBy <| walk r defaults (pending ++ [o]) next ts
      | .closes e =>
        match pending.find? (·.effect = e) with
        | some o =>
          (Finding.closed o t passed).followedBy <|
            walk r defaults (pending.filter (·.effect ≠ e)) next ts
        | none =>
          (Finding.mismatch t (.neverOpened t.content e)).followedBy <|
            walk r defaults pending next ts
    else walk r defaults pending next ts

/-- What a walk finds. -/
def pair (r : Registry) (defaults : Params (Option Float)) (pending : List Opening)
    (passed : Nat) (tokens : List Token) : Except CompileError (List Finding) :=
  (walk r defaults pending passed tokens).result 0

/-- The display text of tokens and what moves in it. -/
structure Timeline where
  display : Text
  regions : List Region
  visibleCount : Nat
  diagnostics : List Diagnostic
  findings : List Finding
  deriving DecidableEq

namespace Timeline

/-- Regions stand in the order of their ends, diagnostics in the order of the source. -/
def ofFindings (tokens : List Token) (findings : List Finding) : Timeline where
  display := tokens.flatMap Token.display
  regions := findings.filterMap Finding.region?
  visibleCount := (tokens.flatMap Token.visible).length
  diagnostics := (findings.filterMap Finding.diagnostic?).mergeSort fun a b => a.offset ≤ b.offset
  findings := findings

/-- The timeline of tokens. -/
def ofTokens (r : Registry) (defaults : Params (Option Float)) (tokens : List Token) :
    Except CompileError Timeline := do
  let findings ← pair r defaults [] 0 tokens
  return ofFindings tokens findings

end Timeline

end KineticText
