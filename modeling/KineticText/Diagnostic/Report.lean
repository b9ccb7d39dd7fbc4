import KineticText.Diagnostic.Basic
import KineticText.Log.Note

/-! Diagnostics written out with the source around them. -/
namespace KineticText.Diagnostic

variable (d : Diagnostic)

def headline : Text :=
  d.kind.name ++ " at character ".toList ++ Text.ofInt d.offset ++ ": ".toList ++ d.message

/-- How much of the source a report shows on each side, unless told otherwise. -/
def defaultWidth : Int := 40

/-- Where the shown part of the source starts. -/
def excerptStart (width : Int) : Nat := (d.offset - width).toNat

/-- Where the shown part of a source of some length ends. An end before the first character
counts from the end of the source. -/
def excerptStop (length : Nat) (width : Int) : Nat :=
  let stop : Int := min length (d.offset + width)
  (if stop < 0 then stop + length else stop).toNat

/-- The part of the source around a diagnostic on one line. -/
def excerpt (source : Array Char) (width : Int) : Text :=
  (source.extract (d.excerptStart width) (d.excerptStop source.size width)).toList.map
    fun c => if c = '\n' then ' ' else c

/-- How far right of the opening dots the caret stands; a caret left of the context is put at
its edge. -/
def caretShift (width : Int) : Int := 3 + d.offset - d.excerptStart width

/-- Whether the line of the caret can be written; a negative count is one of no blanks. -/
def hasCaret (width : Int) : Bool := Text.isCount (d.caretShift width)

/-- Three lines: what is wrong, the source around it, and a caret below the offset. -/
def render (source : Array Char) (width : Int) : Text :=
  d.headline ++ "\nContext: ...".toList ++ d.excerpt source width ++ "...\n".toList ++
    List.replicate (9 + (d.caretShift width).toNat) ' ' ++ ['^']

/-- Writes every diagnostic to the log; the answer is what is written. -/
def report {ε : Type} (source : Text) (found : List Diagnostic) : Journal ε (List Text) := do
  let origin : Origin := ⟨"textmotion.lib.diagnostics".toList, "errors_report".toList⟩
  let characters := source.toArray
  let rendered := found.map (·.render characters defaultWidth)
  rendered.forM (Journal.note 1 origin)
  if found ≠ [] then
    Journal.note 2 origin (Text.ofNat found.length ++ " markup diagnostic(s)".toList)
  return rendered

end KineticText.Diagnostic
