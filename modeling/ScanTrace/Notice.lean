/-
Notices: what the library tells its own log, apart from all console output.
Each occasion is a constructor, so that a run can be asked which notices it
gave; `Notice.line` is the log line of one.
-/
import ScanTrace.Setting

namespace ScanTrace

/-- How much a notice matters. -/
inductive Severity where
  | debug
  | info
  | warn
  deriving DecidableEq

/-- The word that opens a log line. -/
def Severity.label : Severity → String
  | .debug => "DEBUG"
  | .info => "INFO"
  | .warn => "WARN"

/-- An occasion for an entry in the log. -/
inductive Notice where
  /-- A configuration refused the name of a debug level. -/
  | levelRejected (why : Rejection)
  /-- A configuration refused the name of an extension field. -/
  | fieldRejected (why : Rejection)
  | configLoaded (mask : UInt32) (headers : Nat)
  /-- A field letter is known, but nothing of it is traced. -/
  | letterUntraced (letter : Char)
  /-- A console sealed itself and ends the run. -/
  | terminating (code : Int32)
  /-- A sealed console was asked to end the run again. -/
  | alreadyTerminated (code : Int32)
  /-- The host is about to be asked to exit. -/
  | handingOver (code : Int32)
  | installed
  /-- The process already has a sink and keeps it. -/
  | installRefused
  /-- A host function did not end well; the report is the host's own. -/
  | callbackFailed (callback : Callback) (report : String)
  deriving DecidableEq

namespace Notice

def severity : Notice → Severity
  | .levelRejected _ | .fieldRejected _ | .installRefused => .warn
  | .installed => .info
  | _ => .debug

def codeText (c : Int32) : String := String.ofList (Text.signed c.toInt)

def countText (n : Nat) : String := String.ofList (Text.decimal n)

/-- What the log says on each occasion. -/
def message : Notice → String
  | .levelRejected why => "Rejected debug level setting: " ++ why.message
  | .fieldRejected why => "Rejected extension field setting: " ++ why.message
  | .configLoaded mask headers =>
    "Loaded trace configuration: debug mask " ++ String.ofList (Text.hexadecimal mask.toNat)
      ++ ", " ++ countText headers ++ " header extensions"
  | .letterUntraced letter =>
    "Field letter '" ++ letter.toString ++ "' has no trace representation"
  | .terminating c => "terminating run with exit code " ++ codeText c
  | .alreadyTerminated c => "terminate(" ++ codeText c ++ ") on an already terminated console"
  | .handingOver c => "Handing exit code " ++ codeText c ++ " to host"
  | .installed => "📤 Output sink installed"
  | .installRefused => "Refusing to replace the installed output sink"
  | .callbackFailed .tempDir report => "Python host temp_dir callable failed: " ++ report
  | .callbackFailed callback report =>
    "Python host " ++ callback.name ++ " callable raised: " ++ report

def line (n : Notice) : String := n.severity.label ++ " " ++ n.message

end Notice

-- ================================================= making settings one by one

/-- What making a setting leaves: the state after it, the notices it gave, and
why it was refused if it was. -/
structure Outcome (σ : Type) where
  state : σ
  notices : List Notice := []
  rejected : Option Rejection := none

end ScanTrace
