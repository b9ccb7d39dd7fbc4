import KineticText.Log.Note
import KineticText.Log.Template

/-! The log: sinks, and which records reach them. -/
namespace KineticText

/-- How grave a record is. -/
inductive Severity where
  | trace
  | debug
  | info
  | success
  | warning
  | error
  | critical
  deriving DecidableEq

namespace Severity

def all : List Severity := [trace, debug, info, success, warning, error, critical]

def name : Severity → Text
  | trace => "TRACE".toList
  | debug => "DEBUG".toList
  | info => "INFO".toList
  | success => "SUCCESS".toList
  | warning => "WARNING".toList
  | error => "ERROR".toList
  | critical => "CRITICAL".toList

/-- Names are exact, letter case included. -/
def ofName? (n : Text) : Option Severity := all.find? (·.name = n)

def rank : Severity → Nat
  | trace => 5
  | debug => 10
  | info => 20
  | success => 25
  | warning => 30
  | error => 40
  | critical => 50

end Severity

structure Record where
  severity : Severity
  origin : Origin
  message : Text
  deriving DecidableEq

/-- The channel of the library, and those below it. -/
def isLibraryChannel (channel : Text) : Bool :=
  "textmotion.".toList.isPrefixOf (channel ++ ['.'])

/-- Who added a sink: the host, to see every record as it is, or the library, to see its own
records in columns. -/
inductive Sink.Owner where
  | host
  | library
  deriving DecidableEq

structure Sink where
  owner : Sink.Owner
  threshold : Severity
  deriving DecidableEq

namespace Sink

variable (s : Sink) (r : Record)

def accepts : Bool :=
  s.threshold.rank ≤ r.severity.rank ∧ (s.owner = .library → isLibraryChannel r.origin.channel)

/-- A text filled up with blanks. -/
def padded (width : Nat) (t : Text) : Text := t ++ List.replicate (width - t.length) ' '

/-- What a sink writes of a record. -/
def columns : List Text :=
  match s.owner with
  | .host => [r.severity.name, r.origin.channel, r.origin.routine, r.message]
  | .library =>
    [padded 5 r.severity.name, padded 20 r.origin.routine, r.message ++ ['\n']]

end Sink

/-- A line that a sink writes, in columns. -/
structure Written where
  sink : Sink
  columns : List Text
  deriving DecidableEq

/-- The sinks in the order of their addition, where a removed one leaves its place empty;
whether the library's records are let through; and the verbosity in force, if there is one. -/
structure Hub where
  sinks : List (Option Sink) := []
  enabled : Bool := false
  verbosity : Option Int := none
  deriving DecidableEq

namespace Hub

variable (h : Hub)

def enable : Hub := { h with enabled := true }

def disable : Hub := { h with enabled := false }

def connect (verbosity : Option Int) : Hub := { h with verbosity }

/-- Why a sink is not added. -/
inductive SinkError where
  | unknownLevel (name : Text)
  deriving DecidableEq

def SinkError.message : SinkError → Text
  | unknownLevel name => "Level '".toList ++ name ++ "' does not exist".toList

/-- Adds a sink for records of a level and above. A sink of the library lets its records
through, even if the sink is then refused for a level that does not exist. -/
def add (owner : Sink.Owner) (level : Text) : Hub × Except SinkError Unit :=
  let h := if owner = .library then h.enable else h
  match Severity.ofName? level with
  | some threshold => ({ h with sinks := h.sinks ++ [some ⟨owner, threshold⟩] }, .ok ())
  | none => (h, .error (.unknownLevel level))

/-- Removes a sink, if it is there. -/
def remove? (n : Nat) : Option Hub :=
  match h.sinks[n]? with
  | some (some _) => some { h with sinks := h.sinks.set n none }
  | _ => none

/-- Whether records of a channel are let through. -/
def lets (channel : Text) : Bool := isLibraryChannel channel → h.enabled

/-- The sinks that a record reaches. -/
def receivers (r : Record) : List Sink :=
  if h.lets r.origin.channel then (h.sinks.filterMap id).filter (·.accepts r) else []

/-- What the sinks write of a record. -/
def deliver (r : Record) : List Written := (h.receivers r).map fun s => ⟨s, s.columns r⟩

/-- Whether the verbosity in force reaches a level. -/
def reaches (level : Int) : Bool := h.verbosity.any (level ≤ ·)

/-- What the sinks write of a note, which is a debugging record. -/
def deliverNote (n : Note) : List Written := h.deliver ⟨.debug, n.origin, n.message⟩

/-- Runs a computation at the verbosity in force; without one it leaves no notes. -/
def follow {ε α : Type} (m : Journal ε α) : List Written × Except ε α :=
  m.deliver h.deliverNote h.verbosity

/-- Whether records of a severity are made at all: a sink that is there takes them, whatever
their channel. -/
def takes (severity : Severity) : Bool :=
  (h.sinks.filterMap id).any (·.threshold.rank ≤ severity.rank)

/-- Why a message is not written. -/
inductive WriteError where
  /-- A value has the name of the message itself, or of its level. -/
  | takenName
  | template (e : Template.Error)
  deriving DecidableEq

/-- Writes a message with places to fill. It is filled if debugging records are made, also if its
record then reaches no sink. -/
def write (level : Int) (origin : Origin) (message : Text) (values : List (Text × Value)) :
    Except WriteError (List Written) :=
  if values.any fun (name, _) => name = "message".toList ∨ name = "level".toList then
    .error .takenName
  else if h.reaches level ∧ h.lets origin.channel ∧ h.takes .debug then
    match Template.fill values message with
    | .ok text => .ok (h.deliver ⟨.debug, origin, text⟩)
    | .error e => .error (.template e)
  else .ok []

end Hub
end KineticText
