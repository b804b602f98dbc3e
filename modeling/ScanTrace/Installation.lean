/-
The one sink of a process. The first request for a sink is granted, and the
console over it is the console of the process from then on; every later
request is refused, after the end of the run too, and changes nothing. A
host that cannot be built is refused before anything else is looked at.

With the sink the process gets its first tracer, if its environment says
what it is to be made from.
-/
import ScanTrace.Tracer

namespace ScanTrace.Session

/-- The tracer that a process begins with. -/
def openTracer (st : Session) : Session :=
  match st.env.opening with
  | none => st
  | some (.settings levels fields) =>
    { st with tracers := st.tracers ++ [{ console := .main, levels, fields }] }
  | some (.document text) =>
    let loaded := Config.ofText text
    let noted := st.noteAll loaded.notices
    match loaded.result with
    | .error _ => noted
    | .ok config =>
      { noted with
        tracers := noted.tracers ++ [.ofConfig .main config]
        headers := config.headers }

/-- Installs a sink, unless there is one. -/
def install (sink : Sink) (st : Session) : Reply × Session :=
  if st.sink.isSome then (.failed .alreadyInstalled, st.note .installRefused)
  else (.installed, { st.note .installed with sink := some sink }.openTracer)

/-- Installs the sink of a request. -/
def installRequest (request : SinkRequest) (st : Session) : Reply × Session :=
  match request.sink with
  | .error why => (.failed (.rejected why), st)
  | .ok sink => st.install sink

/-- The console of the process, once there is a sink. -/
def console (st : Session) : Except Failure Console :=
  if st.sink.isSome then .ok .main else .error .notInstalled

/-- A process that has its sink from the start, without a word about it, and the
steps that its host functions will take. -/
def withSink (env : Environment) (sink : Sink) (waiting : List (Callback × List Op)) : Session :=
  { ({ env, sink := some sink, waiting } : Session).openTracer with notices := [] }

end ScanTrace.Session
