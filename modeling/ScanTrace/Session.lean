/-
Sessions: the state of a process that traces, and the record of what it did.

# What is kept

The sink is chosen once and never changes. What changes with output is the
store: bytes held back for a host that takes text only, bytes collected,
bytes of the process that still wait to leave it, flushes counted, the exit
code. Each console family is sealed or not. And
three records grow: the calls that the host received (`events`), the
library's own log (`notices`), and the texts that were put into form
(`formatted`). A text that is dropped is not put into form for it; only the
entry of a tag is, which its tracer has put together before it asks the
console.

# Reactions

While a host function runs, it may use the console itself. What it does is
a list of steps, waiting under the name of the function; the first call of
the function takes the list and performs it inside the call. Everything
below the steps is written for any function `react` from a callback and a
session to a session, so a property of `react` carries over to all of it;
the host that does not react is `fun _ st => st`. How waiting steps become
such a function is said in Program.lean.
-/
import ScanTrace.Config.Document
import ScanTrace.LineBuffer
import ScanTrace.Script

namespace ScanTrace

-- =================================================================== parts

/-- Something that the outside got to see. -/
inductive Event where
  | called (call : Call)
  /-- A step that a host function took while it ran was answered. -/
  | reacted (callback : Callback) (reply : Reply)
  deriving DecidableEq

/-- What output leaves behind in a sink. -/
structure Store where
  /-- Bytes that wait for the rest of a sequence. -/
  held : PerStream (List UInt8) := ⟨[], []⟩
  /-- Bytes collected in memory, or written by the process. -/
  written : PerStream (List UInt8) := ⟨[], []⟩
  /-- What of them waits in front of the standard output of the process. -/
  buffer : LineBuffer := {}
  flushes : Nat := 0
  exitCode : Option Int32 := none
  deriving DecidableEq

/-- What the first tracer of a process is made from. -/
inductive Opening where
  | settings (levels : LevelSet) (fields : FieldSet)
  | document (text : String)

/-- What a process finds around it. -/
structure Environment where
  tempDir : String
  /-- A stream of the process that takes nothing. -/
  full : Option Stream := none
  /-- Whether standard output is flushed when the process has run to its end. -/
  flushesAtEnd : Bool := true
  /-- The tracer to begin with, if there is to be one. -/
  opening : Option Opening := none

/-- A process that traces, from its start to its end. -/
structure Session where
  env : Environment
  sink : Option Sink := none
  store : Store := {}
  sealedFamilies : List Nat := []
  tracers : List Tracer := []
  /-- The extensions that mean a header. -/
  headers : List String := defaultHeaders
  /-- The steps that wait for a call of a host function. -/
  waiting : List (Callback × List Op) := []
  events : List Event := []
  notices : List Notice := []
  formatted : List String := []

/-- What host functions do to a session while they run. -/
abbrev React := Callback → Session → Session

namespace Session

-- ========================================================= records and marks

def record (st : Session) (e : Event) : Session := { st with events := st.events ++ [e] }

def note (st : Session) (n : Notice) : Session := { st with notices := st.notices ++ [n] }

def noteAll (st : Session) (ns : List Notice) : Session := { st with notices := st.notices ++ ns }

def format (st : Session) (text : String) : Session :=
  { st with formatted := st.formatted ++ [text] }

def isSealed (st : Session) (c : Console) : Bool := st.sealedFamilies.contains c.family

/-- Seals a console and its clones, for good. -/
def markSealed (st : Session) (c : Console) : Session :=
  { st with sealedFamilies := c.family :: st.sealedFamilies }

/-- Whether the process is over. -/
def ended (st : Session) : Bool := st.sink == some .direct && st.store.exitCode.isSome

/-- The tracer of a number, or the latest. -/
def tracer? (st : Session) : Option Nat → Option Tracer
  | some i => st.tracers[i]?
  | none => st.tracers.getLast?

-- ================================================================ the store

/-- Holds other bytes back for a stream. -/
def hold (st : Session) (s : Stream) (bytes : List UInt8) : Session :=
  { st with store := { st.store with held := st.store.held.set s bytes } }

def collect (st : Session) (s : Stream) (bytes : List UInt8) : Session :=
  { st with store :=
      { st.store with written := st.store.written.set s (st.store.written.get s ++ bytes) } }

/-- Another state of the buffer of standard output; standard error has none. -/
def rebuffer (st : Session) (s : Stream) (next : LineBuffer → LineBuffer) : Session :=
  match s with
  | .stdout => { st with store := { st.store with buffer := next st.store.buffer } }
  | .stderr => st

def countFlush (st : Session) : Session :=
  { st with store := { st.store with flushes := st.store.flushes + 1 } }

def keepExitCode (st : Session) (code : Int32) : Session :=
  { st with store := { st.store with exitCode := some code } }

-- ============================================================ calls to hosts

/-- A call that the host receives, and its reaction. -/
def signal (react : React) (call : Call) (st : Session) : Session :=
  react call.callback (st.record (.called call))

/-- A call of a host function. What is no function is not called; what fails is
noticed, after the reaction. -/
def callHost (react : React) (conduct : Conduct) (call : Call) (st : Session) : Session :=
  match conduct with
  | .notCallable => st.note (.callbackFailed call.callback wrongKind)
  | _ =>
    let after := st.signal react call
    match conduct.report? call with
    | none => after
    | some report => after.note (.callbackFailed call.callback report)

/-- Takes the steps that wait for a callback, if there are any. -/
def takeReaction (st : Session) (callback : Callback) : Option (List Op × Session) :=
  match st.waiting.find? fun e => e.1 == callback with
  | none => none
  | some e => some (e.2, { st with waiting := st.waiting.eraseP fun e => e.1 == callback })

end Session

end ScanTrace
