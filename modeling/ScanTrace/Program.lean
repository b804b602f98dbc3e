/-
Programs: steps one after another, the reactions of host functions to them,
and what each step is answered.

# Reactions

`Session.react n` performs the steps that wait for a callback, each with
`Session.react (n - 1)` for the callbacks it causes in turn. A list that is
taken is gone, so no more than `waiting.length` calls can nest, and that is
the `n` with which every step is performed (`Op.perform` inside
`Step.perform`). Steps that wait never add to what waits: only a step that
gives the process its sink does, and there is a sink when a host runs.
-/
import ScanTrace.Embedding.Api

namespace ScanTrace

def version : String := "0.1.0"

-- ==================================================================== steps

/-- A step that needs a sink. -/
def Session.needingSink (st : Session) (act : Session → Reply × Session) : Reply × Session :=
  if st.sink.isSome then act st else (.failed .notInstalled, st)

/-- A step that needs a tracer besides. -/
def Session.needingTracer (st : Session) (act : Tracer → Session → Reply × Session) :
    Reply × Session :=
  st.needingSink fun st =>
    match st.tracer? none with
    | none => (.failed .noTracer, st)
    | some t => act t st

/-- Drains a buffer in memory and answers its text. -/
def Session.take (s : Stream) (st : Session) : Reply × Session :=
  match st.sink with
  | some (.memory _) =>
    (.text (String.ofList (Utf8.lossy (st.store.written.get s))),
     { st with store := { st.store with written := st.store.written.set s [] } })
  | _ => (.done, st)

/-- Performs a step: what it is answered, and the session after it. -/
def Op.perform (react : React) (st : Session) : Op → Reply × Session
  | .isInstalled => (.flag st.sink.isSome, st)
  | .install request => st.installRequest request
  | .version => (.text ScanTrace.version, st)
  | .redirect functions =>
    match Embedding.redirect functions st with
    | (.installed, after) => (.done, after)
    | other => other
  | .newTracer arguments => Embedding.newTracer arguments st
  | .method tracer name arguments => Embedding.callMethod react tracer name arguments st
  | .sink op => st.needingSink fun st => op.perform react st
  | .console c op => st.needingSink fun st => op.perform react c st
  | .useTracer t => st.needingSink fun st => (.done, { st with tracers := st.tracers ++ [t] })
  | .tracerState => st.needingTracer fun t st =>
    (.tracer t.levels t.fields (st.isSealed t.console), st)
  | .isEnabled level => st.needingTracer fun t st => (.flag (t.isEnabled level), st)
  | .lineBreak => st.needingTracer fun _ st => (.done, st)
  | .trace call => st.needingTracer fun t st => (t.reply st call, t.perform react call st)
  | .tagFound tag path => st.needingTracer fun t st =>
    (.done, t.perform react (.tagEntry tag (Path.hasExtension st.headers path)) st)
  | .take s => st.needingSink (·.take s)

-- ================================================================ reactions

/-- What host functions do while they run, with no more than `n` of them inside
each other. -/
def Session.react : Nat → React
  | 0, _, st => st
  | n + 1, callback, st =>
    match st.takeReaction callback with
    | none => st
    | some (steps, taken) =>
      steps.foldl
        (fun st op =>
          let answered := op.perform (Session.react n) st
          answered.2.record (.reacted callback answered.1))
        taken

-- ================================================================= programs

/-- A step as a program takes it. If it gives the process its sink, the
reactions wait from then on. -/
structure Step where
  op : Op
  reactions : List (Callback × List Op) := []

/-- Performs a step of a program. -/
def Step.perform (step : Step) (st : Session) : Reply × Session :=
  let answered := step.op.perform (Session.react st.waiting.length) st
  if st.sink.isNone && answered.2.sink.isSome then
    (answered.1, { answered.2 with waiting := step.reactions })
  else answered

/-- What a step showed: its reply, what happened during it, and the session that
it left. -/
structure Answer where
  reply : Reply
  events : List Event
  notices : List Notice
  after : Session

/-- Performs steps up to the end of the process. The step that ends it is not
answered any more. -/
def run (st : Session) : List Step → List Answer × Session
  | [] => ([], st)
  | step :: rest =>
    let answered := step.perform st
    let after := answered.2
    if after.ended then ([], after)
    else
      let later := run after rest
      ({ reply := answered.1
         events := after.events.drop st.events.length
         notices := after.notices.drop st.notices.length
         after } :: later.1, later.2)

/-- What has left a process by a stream when it is over. Standard error holds
nothing back; a process that does not flush at its end loses what then waits
in front of standard output. -/
def Session.delivered (st : Session) (s : Stream) : List UInt8 :=
  let written := st.store.written.get s
  match s with
  | .stdout => if st.env.flushesAtEnd then written else st.store.buffer.sent written
  | .stderr => written

/-- The status with which a process ends: the low eight bits of the code that
it was ended with, zero if it ran to its end. -/
def Session.exitStatus (st : Session) : Nat :=
  if st.ended then ((st.store.exitCode.getD 0).toInt % 256).toNat else 0

end ScanTrace
