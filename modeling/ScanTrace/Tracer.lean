/-
Tracers. Every trace call has a level, and a call whose level is not
enabled does nothing whatever. An enabled one writes its whole text at once
and flushes standard output, so that a reader who follows the trace never
sees half a message; only the end of input, which has no text, does not
even flush.
-/
import ScanTrace.Config.Document
import ScanTrace.Console
import ScanTrace.Tag.Entry

namespace ScanTrace

-- =================================================================== texts

namespace TraceCall

def level : TraceCall → Level
  | .emit l _ => l
  | .emitUnit l _ => l
  | .parseNest .. => .parse
  | .cppNest .. => .cpp
  | .cppIgnore _ => .cpp
  | .tagEntry .. => .parse

def depthText (depth : UInt32) : String := String.ofList (Text.decimal depth.toNat)

/-- The word for the beginning or the end of something. -/
def edge (begins : Bool) : String := if begins then "begin" else "end"

def parseNestText (increase : Bool) (depth : UInt32) : String :=
  "<*" ++ (if increase then "++" else "--") ++ "nesting:" ++ depthText depth ++ "*>"

def cppNestText (begins : Bool) (depth : UInt32) : String :=
  "<*cpp:" ++ edge begins ++ " level " ++ depthText depth ++ "*>"

def cppIgnoreText (begins : Bool) : String := "<*cpp:" ++ edge begins ++ " ignore*>"

end TraceCall

-- =================================================================== calls

namespace Tracer

variable (react : React) (t : Tracer)

/-- The tracer of a configuration on a console. -/
def ofConfig (console : Console) (config : Config) : Tracer :=
  { console, levels := config.levels, fields := config.fields, headers := config.headers }

def isEnabled (l : Level) : Bool := t.levels.has l

/-- Writes a text to standard output and flushes it. -/
def say (text : String) (st : Session) : Session :=
  t.console.flush react .stdout (t.console.write react .stdout text st)

/-- Echoes a piece of scanner input. -/
def echo (unit : ScanUnit) (st : Session) : Session :=
  match unit with
  | .endOfInput => st
  | .stringLiteral => t.say react "\"string\"" st
  | .charLiteral => t.say react "'c'" st
  | .char c => t.console.flush react .stdout (t.console.putChar react c st)
  | .byte b => t.console.flush react .stdout (t.console.writeBytes react .stdout [b] st)

/-- A trace call, its level left out of account. -/
def act (st : Session) : TraceCall → Session
  | .emit _ text => t.say react text st
  | .emitUnit _ unit => t.echo react unit st
  | .parseNest increase depth => t.say react (TraceCall.parseNestText increase depth) st
  | .cppNest begins depth => t.say react (TraceCall.cppNestText begins depth) st
  | .cppIgnore begins => t.say react (TraceCall.cppIgnoreText begins) st
  | .tagEntry tag inHeader =>
    let entry := tag.entry t.fields inHeader
    t.say react entry (st.format entry)

/-- A trace call. -/
def perform (call : TraceCall) (st : Session) : Session :=
  if t.isEnabled call.level then t.act react st call else st

/-- Whether a message emitted now is put into form: its level is traced and the
console is not sealed. -/
def forms (l : Level) (st : Session) : Bool := t.isEnabled l && !st.isSealed t.console

/-- The answer to a trace call: a message of the caller's own tells whether it
was put into form. -/
def reply (st : Session) : TraceCall → Reply
  | .emit l _ => .flag (t.forms l st)
  | _ => .done

end Tracer

end ScanTrace
