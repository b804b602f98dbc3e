/-
Scripts: everything that a program can ask of the library, as data. The
operations come in layers, each said in terms of the one before it when it
is performed: what a sink can do, what a console offers over a sink, what a
tracer emits through a console, and the steps of a program, which also
choose the sink and make the tracers.

That operations are data is what lets a host function react: the steps it
takes while it runs are a list kept beside the host (Session.lean).
-/
import ScanTrace.Config.Basic
import ScanTrace.Host
import ScanTrace.Reply
import ScanTrace.ScanUnit
import ScanTrace.Tag.Basic

namespace ScanTrace

-- ==================================================================== sinks

/-- What a sink can be asked to do, past any console. -/
inductive SinkOp where
  | write (s : Stream) (text : String)
  | writeBytes (s : Stream) (bytes : List UInt8)
  | putChar (s : Stream) (c : Char)
  | flush (s : Stream)
  | terminate (code : Int32)
  | tempDir
  deriving DecidableEq

/-- Where output goes in the end. -/
inductive Sink where
  /-- Buffers in memory, with a scratch directory of their own or the system's. -/
  | memory (tempDir : Option String)
  /-- The streams and the exit of the process. -/
  | direct
  /-- A sink of the host's own making that has only the operations it must
  have and is told of each as it comes. -/
  | plain
  | host (h : Host)
  deriving DecidableEq

/-- A sink that a program asks to have installed. -/
inductive SinkRequest where
  | memory (tempDir : Option String)
  | direct
  | plain
  | host (r : Registration)

/-- The sink of a request, refused if its host cannot be built. -/
def SinkRequest.sink : SinkRequest → Except Rejection Sink
  | .memory dir => .ok (.memory dir)
  | .direct => .ok .direct
  | .plain => .ok .plain
  | .host r => r.host.map .host

-- ================================================================= consoles

/-- A console over the sink. Consoles of one family are clones of each other
and are sealed together. -/
structure Console where
  family : Nat
  deriving DecidableEq

/-- The console of the first family, the one that a process installs. -/
def Console.main : Console := ⟨0⟩

/-- What a console offers, its streams included. -/
inductive ConsoleOp where
  | print (text : String)
  | eprint (text : String)
  | puts (text : String)
  | putChar (c : Char)
  | write (s : Stream) (text : String)
  | writeBytes (s : Stream) (bytes : List UInt8)
  | flush
  | flushStream (s : Stream)
  | terminate (code : Int32)
  | isTerminated
  | tempDir
  | describe
  /-- A text that tells whether it was put into form at all. -/
  | printTelling (text : String)
  | streamName (s : Stream)
  /-- Bytes for a stream, answered by how many were taken. -/
  | streamWrite (s : Stream) (bytes : List UInt8)
  | streamWriteAll (s : Stream) (bytes : List UInt8)
  | streamFlush (s : Stream)
  | streamWriteText (s : Stream) (text : String)
  | streamWriteChar (s : Stream) (c : Char)
  deriving DecidableEq

-- ================================================================== tracers

/-- A trace call. -/
inductive TraceCall where
  /-- A message of the caller's own. -/
  | emit (level : Level) (text : String)
  /-- A piece of scanner input, echoed. -/
  | emitUnit (level : Level) (unit : ScanUnit)
  /-- The nesting depth of the parser changed. -/
  | parseNest (increase : Bool) (depth : UInt32)
  /-- A conditional of the preprocessor begins or ends. -/
  | cppNest (begins : Bool) (depth : UInt32)
  /-- A branch that the preprocessor ignores begins or ends. -/
  | cppIgnore (begins : Bool)
  | tagEntry (tag : Tag) (inHeader : Bool)
  deriving DecidableEq

/-- A tracer: what it traces, what its entries show, and where they go. Its
settings are fixed for its lifetime. -/
structure Tracer where
  console : Console
  levels : LevelSet
  fields : FieldSet := {}
  /-- The extensions that mean a header, where it is told of a file and not
  whether the file is one. -/
  headers : List String := defaultHeaders
  deriving DecidableEq

-- ==================================================================== steps

/-- A step of a program. -/
inductive Op where
  | isInstalled
  | install (request : SinkRequest)
  | version
  /-- Asks for a host made of functions given by name, as a scripting host does;
  a name without a function was given none. -/
  | redirect (functions : List (String × Option Conduct))
  /-- Makes a tracer from a scripting host. -/
  | newTracer (arguments : Embedding.Arguments)
  /-- Calls a method of a tracer from a scripting host; without a number the
  latest tracer is meant. -/
  | method (tracer : Option Nat) (name : String) (arguments : Embedding.Arguments)
  | sink (op : SinkOp)
  | console (c : Console) (op : ConsoleOp)
  /-- Makes a tracer and goes on with it. -/
  | useTracer (t : Tracer)
  | tracerState
  | isEnabled (level : Level)
  /-- Marks a line boundary, for a debugger to stop at. -/
  | lineBreak
  | trace (call : TraceCall)
  /-- Traces a tag that was found in a file. -/
  | tagFound (tag : Tag) (path : List UInt8)
  | take (s : Stream)

end ScanTrace
