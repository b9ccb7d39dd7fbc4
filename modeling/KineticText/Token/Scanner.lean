import KineticText.Command
import KineticText.Token.Basic

/-! The scanner, which cuts a source into text and directives. -/
namespace KineticText

/-- What the scanner is reading: text, the inside of a tag, or what follows a tag. -/
inductive Scanner.Mode where
  | plain
  | tagOpen
  | tagJustClosed
  deriving DecidableEq

/-- A scanner in the middle of a source; all its lists are newest first. The buffers hold the
characters read since the last token; the start marks belong to the buffers and are read only
while these are in use. -/
structure Scanner where
  mode : Scanner.Mode := .plain
  /-- How many characters have been read. -/
  consumed : Nat := 0
  tokens : List Token := []
  diagnostics : List Diagnostic := []
  text : Text := []
  textStart : Nat := 0
  command : Text := []
  commandStart : Nat := 0
  deriving DecidableEq

namespace Scanner

variable (r : Registry) (s : Scanner)

/-- Forgets what an earlier source left, the start marks excepted. -/
def reset : Scanner :=
  { textStart := s.textStart, commandStart := s.commandStart }

def report (f : Fault) (offset : Nat) : Scanner :=
  { s with diagnostics := f.located offset :: s.diagnostics }

/-- Makes a token of the text read, if there is any. -/
def flushText : Scanner :=
  if s.text = [] then s else
    { s with
      tokens := { kind := .text, content := s.text.reverse, offset := s.textStart } :: s.tokens
      text := [] }

def openTag : Scanner :=
  { s with mode := .tagOpen, command := [], commandStart := s.consumed }

/-- Decodes the command read and makes a directive of it. -/
def closeTag (closed : Bool) : Scanner :=
  let raw := s.command.reverse
  let (command, faults) := Command.decode r raw s.commandStart
  { s with
    mode := .tagJustClosed
    diagnostics := faults.reverse ++ s.diagnostics
    tokens :=
      { kind := .directive, content := raw, offset := s.commandStart,
        codeword := command.codeword, params := command.params, closed } :: s.tokens
    command := [] }

def readPlain (c : Char) : Scanner :=
  if c = '<' then s.flushText.openTag
  else
    let s := if c = '>' then s.report .unopened s.consumed else s
    { s with
      mode := .plain
      textStart := if s.text = [] then s.consumed else s.textStart
      text := c :: s.text }

def readTag (c : Char) : Scanner :=
  if c = '>' then s.closeTag r true
  else
    let s := if c = '<' then s.report (.nested s.commandStart) s.consumed else s
    { s with command := c :: s.command }

/-- Reads one character. -/
def read (c : Char) : Scanner :=
  let s := if s.mode = .tagOpen then s.readTag r c else s.readPlain c
  { s with consumed := s.consumed + 1 }

/-- At the end of the source, a tag still open becomes a directive that is not closed. -/
def finish : Scanner :=
  let s := if s.mode = .tagOpen then
    (s.report .unterminated s.commandStart).closeTag r false else s
  s.flushText

/-- Scans a source from the start, whatever the scanner read before. -/
def scan (source : Text) : Scanner := (source.foldl (read r) s.reset).finish r

/-- What has been found, in the order of the source. -/
def found : List Token × List Diagnostic := (s.tokens.reverse, s.diagnostics.reverse)

/-- The index of the last character read. -/
def position : Nat := s.consumed - 1

end Scanner

/-- The tokens of a source and what is wrong with its tags. -/
def tokenize (r : Registry) (source : Text) : List Token × List Diagnostic :=
  (({} : Scanner).scan r source).found

end KineticText
