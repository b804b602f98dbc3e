/-
What a scripting host can call: a redirection of the output to functions of
its own, the making of tracers, and the methods of a tracer.

The arguments of a call are converted before anything else happens, so a
call that does not fit leaves no trace. Making a tracer then needs a sink,
and only then looks at the names it was given: all levels in the order of
the list, then all fields, up to the first that is unknown. Which files are
headers a script cannot choose: its tracers know the usual extensions,
whatever document the process began with.
-/
import ScanTrace.Installation

namespace ScanTrace.Embedding

-- ================================================================ redirection

def redirectParameters : List Parameter :=
  [⟨"write", true⟩, ⟨"flush", true⟩, ⟨"exit", true⟩, ⟨"put_char", false⟩,
   ⟨"temp_dir", false⟩, ⟨"write_bytes", false⟩]

/-- A function that has to be given; none is taken, but cannot be called. -/
def requiredFunction (given : Option (Option Conduct)) : Option Conduct :=
  given.map (·.getD .notCallable)

def registration (functions : List (String × Option Conduct)) :
    Except ArgumentFault Registration := do
  let args ← bind redirectParameters [] functions
  let argument (i : Nat) : Option (Option Conduct) := args[i]?.join
  return {
    write := requiredFunction (argument 0)
    flush := requiredFunction (argument 1)
    exit := requiredFunction (argument 2)
    putChar := (argument 3).join
    tempDir := (argument 4).join
    writeBytes := (argument 5).join }

def redirect (functions : List (String × Option Conduct)) (st : Session) : Reply × Session :=
  match registration functions with
  | .error fault => (.failed (.argument fault), st)
  | .ok r => st.installRequest (.host r)

-- =================================================================== tracers

def tracerParameters : List Parameter := [⟨"debug_levels", false⟩, ⟨"fields", false⟩]

/-- The names of levels and of fields that a new tracer is given. -/
def tracerNames (arguments : Arguments) : Except ArgumentFault (List String × List String) := do
  let args ← bind tracerParameters arguments.positional arguments.named
  let levels ← withDefault [] Value.toTexts args[0]?.join
  let fields ← withDefault [] Value.toTexts args[1]?.join
  return (levels, fields)

/-- The configuration in which the named levels and fields are on. -/
def configure (levels fields : List String) : Outcome Config :=
  Config.setAll {} (levels.map (·, true)) (fields.map (·, true))

def makeTracer (levels fields : List String) (st : Session) : Reply × Session :=
  match st.console with
  | .error why => (.failed why, st)
  | .ok console =>
    let o := configure levels fields
    let noted := st.noteAll o.notices
    match o.rejected with
    | some why => (.failed (.rejected why), noted)
    | none => (.done, { noted with tracers := noted.tracers ++ [.ofConfig console o.state] })

def newTracer (arguments : Arguments) (st : Session) : Reply × Session :=
  match tracerNames arguments with
  | .error fault => (.failed (.argument fault), st)
  | .ok (levels, fields) => makeTracer levels fields st

-- ================================================================== methods

/-- A call of a method, its arguments converted; levels are still names. -/
inductive Request where
  | isEnabled (level : String)
  | emit (level message : String)
  | emitUnit (level : String) (raw : Int32)
  | trace (call : TraceCall)
  | tagFound (tag : Tag) (path : String)

/-- The parameters of a method, none if there is no such method. -/
def methodParameters? : String → Option (List Parameter)
  | "is_enabled" => some [⟨"level", true⟩]
  | "emit" => some [⟨"level", true⟩, ⟨"message", true⟩]
  | "emit_char" => some [⟨"level", true⟩, ⟨"c", true⟩]
  | "parse_nest" => some [⟨"increase", true⟩, ⟨"depth", true⟩]
  | "cpp_nest" => some [⟨"begin", true⟩, ⟨"depth", true⟩]
  | "cpp_ignore" => some [⟨"ignore", true⟩]
  | "tag_entry" => some
    [⟨"name", true⟩, ⟨"kind_name", true⟩, ⟨"file_path", true⟩, ⟨"file_scope", false⟩,
     ⟨"scope", false⟩, ⟨"inheritance", false⟩, ⟨"access", false⟩, ⟨"implementation", false⟩,
     ⟨"type_ref", false⟩]
  | _ => none

def construct (pair : String × String) : Construct := ⟨pair.1, pair.2⟩

/-- The tag that the arguments describe and the path of its file. -/
def tagRequest (args : List (Option Value)) : Except ArgumentFault Request := do
  let name ← given Value.toText args[0]?.join
  let kind ← given Value.toText args[1]?.join
  let path ← given Value.toText args[2]?.join
  let fileScope ← withDefault false Value.toBool args[3]?.join
  let scope ← optional Value.toPair args[4]?.join
  let inheritance ← optional Value.toText args[5]?.join
  let access ← optional Value.toText args[6]?.join
  let implementation ← optional Value.toText args[7]?.join
  let typeRef ← optional Value.toPair args[8]?.join
  return .tagFound
    { name, kind, fileScope, scope := scope.map construct, inheritance, access, implementation,
      typeRef := typeRef.map construct } path

/-- The request that a call of a method makes with the arguments bound to its
parameters. -/
def request (method : String) (args : List (Option Value)) : Except ArgumentFault Request := do
  match method with
  | "is_enabled" => return .isEnabled (← given Value.toText args[0]?.join)
  | "emit" =>
    let level ← given Value.toText args[0]?.join
    return .emit level (← given Value.toText args[1]?.join)
  | "emit_char" =>
    let level ← given Value.toText args[0]?.join
    return .emitUnit level (← given Value.toInt32 args[1]?.join)
  | "parse_nest" =>
    let increase ← given Value.toBool args[0]?.join
    return .trace (.parseNest increase (← given Value.toUInt32 args[1]?.join))
  | "cpp_nest" =>
    let begins ← given Value.toBool args[0]?.join
    return .trace (.cppNest begins (← given Value.toUInt32 args[1]?.join))
  | "cpp_ignore" => return .trace (.cppIgnore (← given Value.toBool args[0]?.join))
  | _ => tagRequest args

def Request.perform (react : React) (t : Tracer) (st : Session) : Request → Reply × Session
  | .isEnabled level =>
    match Level.ofName level with
    | .error why => (.failed (.rejected why), st)
    | .ok l => (.flag (t.isEnabled l), st)
  | .emit level message =>
    match Level.ofName level with
    | .error why => (.failed (.rejected why), st)
    | .ok l => (.done, t.perform react (.emit l message) st)
  | .emitUnit level raw =>
    match Level.ofName level with
    | .error why => (.failed (.rejected why), st)
    | .ok l => (.done, t.perform react (.emitUnit l (.ofRaw raw)) st)
  | .trace call => (.done, t.perform react call st)
  | .tagFound tag path =>
    let inHeader := Path.hasExtension t.headers (Session.bytesOf path)
    (.done, t.perform react (.tagEntry tag inHeader) st)

def callMethod (react : React) (tracer : Option Nat) (method : String) (arguments : Arguments)
    (st : Session) : Reply × Session :=
  match st.tracer? tracer with
  | none => (.failed .noTracer, st)
  | some t =>
    match methodParameters? method with
    | none => (.failed .noMethod, st)
    | some parameters =>
      match bind parameters arguments.positional arguments.named >>= request method with
      | .error fault => (.failed (.argument fault), st)
      | .ok r => r.perform react t st

end ScanTrace.Embedding
