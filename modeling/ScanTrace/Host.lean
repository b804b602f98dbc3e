/-
Hosts: programs that take over the console output of a run. A host
registers up to six functions. Three of them, for texts, flushes and the
exit, it has to register; the others it may leave out, and then bytes are
put together into text, single characters are written as texts, and the
scratch directory is the system's.

What a host function does is the host's own affair. `Conduct` keeps the
part of it that comes back: a value, or a failure with a report. A failure
is swallowed and noticed, because output is best effort. (What a function
does to the console while it runs is the matter of reactions, in
Session.lean.)
-/
import ScanTrace.Notice
import ScanTrace.Stream
import ScanTrace.Text.ByteLiteral

namespace ScanTrace

-- =========================================================== calls to a host

/-- One call of a host function, with its arguments. -/
inductive Call where
  | write (s : Stream) (text : String)
  | writeBytes (s : Stream) (bytes : List UInt8)
  | putChar (s : Stream) (c : Char)
  | flush (s : Stream)
  | exit (code : Int32)
  | tempDir
  deriving DecidableEq

namespace Call

def callback : Call → Callback
  | .write .. => .write
  | .writeBytes .. => .writeBytes
  | .putChar .. => .putChar
  | .flush _ => .flush
  | .exit _ => .exit
  | .tempDir => .tempDir

/-- How the last argument of a call is shown; without an argument it shows as
None. -/
def lastArgument : Call → String
  | .write _ text => text
  | .writeBytes _ bytes => String.ofList (Text.byteLiteral bytes)
  | .putChar _ c => c.toString
  | .flush s => s.name
  | .exit code => String.ofList (Text.signed code.toInt)
  | .tempDir => "None"

end Call

-- ======================================================== how a call ends

/-- How the calls of a host function end. -/
inductive Conduct where
  /-- It comes back, with a text if it gives one. -/
  | returns (text : Option String)
  /-- It fails, and this is the report of the failure. -/
  | fails (report : String)
  /-- It fails with its own last argument as the matter of the failure. -/
  | failsWithArgument (kind : String)
  /-- It is no function, so that every call of it fails before it begins. -/
  | notCallable
  deriving DecidableEq

/-- The report when something is not of the kind that it is used as. -/
def wrongKind : String := "TypeError"

/-- The report of a call that failed while it ran. -/
def Conduct.report? (conduct : Conduct) (call : Call) : Option String :=
  match conduct with
  | .returns _ | .notCallable => none
  | .fails report => some report
  | .failsWithArgument kind => some (kind ++ ": " ++ call.lastArgument)

-- ================================================================== hosts

structure Host where
  write : Conduct
  flush : Conduct
  exit : Conduct
  writeBytes : Option Conduct := none
  putChar : Option Conduct := none
  tempDir : Option Conduct := none
  deriving DecidableEq

/-- The functions that a host has registered so far. -/
structure Registration where
  write : Option Conduct := none
  flush : Option Conduct := none
  exit : Option Conduct := none
  writeBytes : Option Conduct := none
  putChar : Option Conduct := none
  tempDir : Option Conduct := none

/-- A function that has to be registered. -/
def Registration.required (callback : Callback) : Option Conduct → Except Rejection Conduct
  | some conduct => .ok conduct
  | none => .error (.unregistered callback)

/-- The host of a registration, refused for the first function that it lacks. -/
def Registration.host (r : Registration) : Except Rejection Host := do
  return {
    write := ← required .write r.write
    flush := ← required .flush r.flush
    exit := ← required .exit r.exit
    writeBytes := r.writeBytes
    putChar := r.putChar
    tempDir := r.tempDir }

namespace Host

/-- Whether bytes reach the host as text only. -/
def textOnly (h : Host) : Bool := h.writeBytes.isNone

def yesNo (b : Bool) : String := if b then "true" else "false"

/-- Diagnostics show the fields of something in braces, and that there are more. -/
def inBraces (fields : String) : String :=
  String.ofList (['{', ' '] ++ fields.toList ++ [',', ' ', '.', '.', ' ', '}'])

/-- How a host is described in diagnostics: by what it registered beyond the
required functions. -/
def describe (h : Host) : String :=
  "HostFunctions " ++ inBraces ("write_bytes: " ++ yesNo h.writeBytes.isSome
    ++ ", put_char: " ++ yesNo h.putChar.isSome
    ++ ", temp_dir: " ++ yesNo h.tempDir.isSome)

end Host

end ScanTrace
