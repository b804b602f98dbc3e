/-
Runs in which a host function may use the library while it is called, and be
called again from there, to any depth and through any console.

An operation that is interrupted in this way is a frame: the call it waits
for, if it waits for one, what is left of the request that the sink is busy
with, and what is left of the operation after it (`Frame`). The frames are a
stack. It is the turn of the program, or of the host function in the topmost
frame, whenever nothing is left to do before its answer (`Waits`); it may
then start any operation, or do something of its own that output has no part
in (`Aside`), or come back.

# Why steps

The operations themselves are defined for a function that is the reaction of
the host (Session.lean). Such a function says where a reaction ends, and
nothing of what is true in its midst. Here every moment of a run is there to
be spoken of, and the trace of a run says in which order things happened. No
generality is lost: whatever a program does is such a run (Realized.lean).

# How to reason about runs

`Run.invariant` is the one induction. What a moment and the trace up to it
keep through every single step, they keep through every run.
-/
import ScanTrace.Program
import ScanTrace.Proofs.Deeds
import ScanTrace.Proofs.Hosted.Idle

namespace ScanTrace

open Session

-- ==================================================================== uses

/-- An operation that a program or a host function can start. -/
inductive Use where
  | sink (op : SinkOp)
  | console (c : Console) (op : ConsoleOp)
  | trace (t : Tracer) (call : TraceCall)

namespace Use

def perform (react : React) (st : Session) : Use → Reply × Session
  | .sink op => op.perform react st
  | .console c op => op.perform react c st
  | .trace t call => (t.reply st call, t.perform react call st)

def deeds : Use → List Deed
  | .sink op => [.ask none op]
  | .console c op => op.deeds c
  | .trace t call => t.deeds call

theorem perform_deeds (react : React) (st : Session) (u : Use) :
    (u.perform react st).2 = Deed.performAll react st u.deeds := by
  cases u with
  | sink op => rfl
  | console c op => exact op.perform_deeds react c st
  | trace t call => exact t.perform_deeds react st call

end Use

theorem Lasts.use {react : React} {P : Session → Prop} {st : Session} (hl : Lasts react P)
    (h : P st) (u : Use) : P (u.perform react st).2 := by
  rw [Use.perform_deeds]
  exact hl.performAll h u.deeds

/-- What a program or a host does beside output: it may make tracers, take what
is collected in memory, wait for other things, be answered and be told. -/
structure Aside (st st' : Session) : Prop where
  env : st'.env = st.env
  sink : st'.sink = st.sink
  sealedFamilies : st'.sealedFamilies = st.sealedFamilies
  formatted : st'.formatted = st.formatted
  held : st'.store.held = st.store.held
  flushes : st'.store.flushes = st.store.flushes
  exitCode : st'.store.exitCode = st.store.exitCode
  events : ∃ more, st'.events = st.events ++ more
    ∧ ∀ e ∈ more, ∃ callback reply, e = .reacted callback reply

-- ================================================================= moments

/-- An operation that is not over. -/
structure Frame where
  /-- The call that it waits for. -/
  call : Option (Conduct × Call) := none
  /-- What is left of the request that the sink is busy with. -/
  acts : List Act := []
  deeds : List Deed

/-- A moment of a run: the operations that are not over, the latest first. -/
structure Moment where
  frames : List Frame
  st : Session

namespace Moment

/-- It is the turn of the program or of a host function. -/
def Waits (m : Moment) : Prop :=
  match m.frames with
  | [] => True
  | f :: _ => f.call.isSome = true

def start (m : Moment) (u : Use) : Moment := ⟨{ deeds := u.deeds } :: m.frames, m.st⟩

end Moment

/-- What is to be seen of a step. -/
inductive Label where
  | starts (u : Use)
  | asks (op : SinkOp)
  /-- A console that is not sealed begins to end the run. -/
  | closes (c : Console) (code : Int32)
  | seals (c : Console) (code : Int32)
  | silent

/-- One step of a run. -/
inductive Move : Label → Moment → Moment → Prop where
  | start {m : Moment} (u : Use) : m.Waits → Move (.starts u) m (m.start u)
  | aside {m : Moment} {st' : Session} : m.Waits → Aside m.st st' →
      Move .silent m ⟨m.frames, st'⟩
  | ask {guard : Option Console} {op : SinkOp} {ds : List Deed} {fs : List Frame}
      {st : Session} : (∀ c, guard = some c → st.isSealed c = false) →
      Move (.asks op) ⟨⟨none, [], .ask guard op :: ds⟩ :: fs, st⟩
        ⟨⟨none, op.acts st.sink, ds⟩ :: fs, st⟩
  | drop {c : Console} {op : SinkOp} {ds : List Deed} {fs : List Frame} {st : Session} :
      st.isSealed c = true →
      Move .silent ⟨⟨none, [], .ask (some c) op :: ds⟩ :: fs, st⟩ ⟨⟨none, [], ds⟩ :: fs, st⟩
  | refuse {c : Console} {code : Int32} {ds : List Deed} {fs : List Frame} {st : Session} :
      st.isSealed c = true →
      Move .silent ⟨⟨none, [], .close c code :: ds⟩ :: fs, st⟩
        ⟨⟨none, [], ds⟩ :: fs, st.note (.alreadyTerminated code)⟩
  | close {c : Console} {code : Int32} {ds : List Deed} {fs : List Frame} {st : Session} :
      st.isSealed c = false →
      Move (.closes c code) ⟨⟨none, [], .close c code :: ds⟩ :: fs, st⟩
        ⟨⟨none, [], Deed.closing c code ++ ds⟩ :: fs, st⟩
  | mark {c : Console} {code : Int32} {ds : List Deed} {fs : List Frame} {st : Session} :
      Move (.seals c code) ⟨⟨none, [], .mark c code :: ds⟩ :: fs, st⟩
        ⟨⟨none, [], ds⟩ :: fs, (st.markSealed c).note (.terminating code)⟩
  | form {text : String} {ds : List Deed} {fs : List Frame} {st : Session} :
      Move .silent ⟨⟨none, [], .form text :: ds⟩ :: fs, st⟩
        ⟨⟨none, [], ds⟩ :: fs, st.format text⟩
  | act {a : Act} {as : List Act} {ds : List Deed} {fs : List Frame} {st : Session} :
      Move .silent ⟨⟨none, a :: as, ds⟩ :: fs, st⟩
        ⟨⟨(a.begin st).2, as, ds⟩ :: fs, (a.begin st).1⟩
  | back {conduct : Conduct} {call : Call} {as : List Act} {ds : List Deed} {fs : List Frame}
      {st : Session} :
      Move .silent ⟨⟨some (conduct, call), as, ds⟩ :: fs, st⟩
        ⟨⟨none, as, ds⟩ :: fs, st.endCall conduct call⟩
  | finish {fs : List Frame} {st : Session} :
      Move .silent ⟨⟨none, [], []⟩ :: fs, st⟩ ⟨fs, st⟩

-- ==================================================================== runs

/-- Steps, one after another, and their trace. -/
inductive Run : Moment → List Label → Moment → Prop where
  | nil (m : Moment) : Run m [] m
  | cons {l : Label} {trace : List Label} {m m' m'' : Moment} :
      Move l m m' → Run m' trace m'' → Run m (l :: trace) m''

namespace Run

variable {m m' m'' : Moment} {trace trace' : List Label}

theorem single {l : Label} (h : Move l m m') : Run m [l] m' := .cons h (.nil m')

theorem append (h : Run m trace m') (h' : Run m' trace' m'') : Run m (trace ++ trace') m'' := by
  induction h with
  | nil m => exact h'
  | cons hmove _ ih => exact .cons hmove (ih h')

/-- What every step keeps, a run keeps. -/
theorem invariant {I : List Label → Moment → Prop}
    (hstep : ∀ {past m l m'}, I past m → Move l m m' → I (past ++ [l]) m') {past : List Label}
    (h : Run m trace m') (hI : I past m) : I (past ++ trace) m' := by
  induction h generalizing past with
  | nil m => rwa [List.append_nil]
  | @cons l trace m m' m'' hmove _ ih =>
    have hnext := ih (hstep hI hmove)
    rwa [List.append_assoc, List.singleton_append] at hnext

end Run

theorem Move.sink {l : Label} {m m' : Moment} (h : Move l m m') : m'.st.sink = m.st.sink := by
  cases h with
  | aside _ ha => exact ha.sink
  | act => exact (Keeps.begin _ _).sink
  | back => exact (Keeps.endCall ..).sink
  | start | ask | drop | refuse | close | mark | form | finish => rfl

theorem Run.sink {m m' : Moment} {trace : List Label} (h : Run m trace m') :
    m'.st.sink = m.st.sink := by
  induction h with
  | nil m => rfl
  | cons hmove _ ih => exact ih.trans hmove.sink

end ScanTrace
