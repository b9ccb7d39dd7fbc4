import KineticText.Diagnostic.Report
import KineticText.Highlight.Terminal
import KineticText.Settings.Basic
import KineticText.Timeline.Pairing
import KineticText.Token.Pause
import KineticText.Token.Scanner

/-! Compiling markup in three stages. -/
namespace KineticText

/-- A compile under way: the source and what the stages have made of it so far. -/
structure Draft where
  source : Text
  tokens : List Token := []
  processed : List Token := []
  display : Text := []
  regions : List Region := []
  visibleCount : Nat := 0
  diagnostics : List Diagnostic := []
  deriving DecidableEq

/-- Markup compiled: its display text, what moves in it, and what is wrong with it. -/
structure Compiled where
  display : Text
  regions : List Region
  diagnostics : List Diagnostic
  tokens : List Token
  processed : List Token
  visibleCount : Nat
  deriving DecidableEq

def Draft.compiled (d : Draft) : Compiled :=
  ⟨d.display, d.regions, d.diagnostics, d.tokens, d.processed, d.visibleCount⟩

namespace Draft

variable (s : Settings) (r : Registry) (d : Draft)

/-- Cuts the source into tokens. -/
def tokenize : Journal CompileError Draft := do
  let (tokens, found) := KineticText.tokenize r d.source
  Journal.note 2 ⟨compilerChannel, "source_tokenize".toList⟩
    ("Tokenized ".toList ++ Text.ofNat d.source.length ++ " characters into ".toList ++
      Text.ofNat tokens.length ++ " tokens".toList)
  return { d with tokens, diagnostics := d.diagnostics ++ found }

/-- Splits the text at the pauses. -/
def split : Journal CompileError Draft := do
  let processed := splitPauses s.pauseMark d.tokens
  Journal.note 2 ⟨compilerChannel, "pauses_split".toList⟩
    ("Pause splitting produced ".toList ++ Text.ofNat processed.length ++ " tokens".toList)
  return { d with processed }

/-- Makes the display text and the timeline. -/
def layTimeline : Journal CompileError Draft := do
  let findings ← walk r s.paramDefaults [] 0 d.processed
  let t := Timeline.ofFindings d.processed findings
  Journal.note 2 ⟨compilerChannel, "timeline_compile".toList⟩
    ("Compiled ".toList ++ Text.ofNat t.regions.length ++ " animation regions over ".toList ++
      Text.ofNat t.visibleCount ++ " visible characters".toList)
  return { d with
    display := t.display, regions := t.regions, visibleCount := t.visibleCount
    diagnostics := d.diagnostics ++ t.diagnostics }

end Draft

/-- A stage of a compile. -/
inductive Stage where
  | tokenize
  | split
  | timeline
  deriving DecidableEq

namespace Stage

variable (s : Settings) (r : Registry)

def run : Stage → Draft → Journal CompileError Draft
  | tokenize, d => d.tokenize r
  | split, d => d.split s
  | timeline, d => d.layTimeline s r

/-- Runs stages one after the other. -/
def runAll (stages : List Stage) (d : Draft) : Journal CompileError Draft :=
  stages.foldlM (fun d stage => stage.run s r d) d

/-- The stages of a compile. -/
def all : List Stage := [tokenize, split, timeline]

end Stage

/-- Compiles markup. What is wrong with the markup is part of the result. The source is noted as
`paint` colours it. -/
def compilePainted (paint : Text → Text) (s : Settings) (r : Registry) (source : Text) :
    Journal CompileError Compiled := do
  Journal.atLeast 3 <|
    Journal.note 3 ⟨compilerChannel, "markup_compile".toList⟩
      ("Compiling:\n".toList ++ paint source)
  let d ← Stage.runAll s r Stage.all { source }
  let _ ← Diagnostic.report source d.diagnostics
  return d.compiled

def compileJournal : Settings → Registry → Text → Journal CompileError Compiled :=
  compilePainted (Highlight.terminal .light)

/-- The result of a compile. -/
def compile (s : Settings) (r : Registry) (source : Text) : Except CompileError Compiled :=
  (compileJournal s r source).result s.verbosity

end KineticText
