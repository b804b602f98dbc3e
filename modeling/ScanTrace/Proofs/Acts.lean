/-
Operations of a sink taken apart. An operation may call the host in the
middle, and the host may use the library while it is called; so what an
operation does is a sequence of acts, none of which calls the host more than
once, and then as the last thing that it does.

The acts of an operation are data, and they depend on nothing but the choice
of the sink (`SinkOp.acts`). That they are the operation is proved for every
reaction of the host (`SinkOp.perform_acts`), so what each of ten acts is
shown to do to a session is shown for all operations of all sinks.

An act that calls the host is itself taken apart at the call: what comes
before it (`Act.begin`), the reaction, and the report of a failure behind it.
What holds of the two halves and of the reaction holds of the act
(`Act.perform_begin`). The halves make output and leave the rest of a session
as it was (`Session.SameButOutput`).
-/
import ScanTrace.Sink
import Mathlib.Tactic

namespace ScanTrace

-- ==================================================================== acts

/-- A host that does nothing to the session while its functions run. -/
def Session.idle : React := fun _ st => st

/-- One thing that a sink does. -/
inductive Act where
  | format (text : String)
  | release (h : Host) (s : Stream)
  | assemble (h : Host) (s : Stream) (bytes : List UInt8)
  | tell (conduct : Conduct) (call : Call)
  | collect (s : Stream) (bytes : List UInt8)
  | emitDirect (s : Stream) (bytes : List UInt8)
  | countFlush
  | flushDirect (s : Stream)
  | keepExitCode (code : Int32)
  | note (n : Notice)

def Act.perform (react : React) (st : Session) : Act → Session
  | .format text => st.format text
  | .release h s => st.release react h s
  | .assemble h s bytes => st.assemble react h s bytes
  | .tell conduct call => st.callHost react conduct call
  | .collect s bytes => st.collect s bytes
  | .emitDirect s bytes => st.emitDirect s bytes
  | .countFlush => st.countFlush
  | .flushDirect s => st.flushDirect s
  | .keepExitCode code => st.keepExitCode code
  | .note n => st.note n

/-- Acts, one after another. -/
def Act.performAll (react : React) (st : Session) (acts : List Act) : Session :=
  acts.foldl (Act.perform react) st

namespace SinkOp

def memoryActs : SinkOp → List Act
  | .write s text => [.format text, .collect s (Session.bytesOf text)]
  | .writeBytes s bytes => [.collect s bytes]
  | .putChar s c => [.collect s (Utf8.encode [c])]
  | .flush _ => [.countFlush]
  | .terminate code => [.keepExitCode code]
  | .tempDir => []

def directActs : SinkOp → List Act
  | .write s text => [.format text, .emitDirect s (Session.bytesOf text)]
  | .writeBytes s bytes => [.emitDirect s bytes]
  | .putChar s c => [.emitDirect s (Utf8.encode [c])]
  | .flush s => [.flushDirect s]
  | .terminate code => [.flushDirect .stdout, .flushDirect .stderr, .keepExitCode code]
  | .tempDir => []

/-- A plain sink is a host that has one function for everything. -/
def plainActs : SinkOp → List Act
  | .write s text => [.format text, .tell (.returns none) (.write s text)]
  | .writeBytes s bytes => [.tell (.returns none) (.writeBytes s bytes)]
  | .putChar s c => [.tell (.returns none) (.write s c.toString)]
  | .flush s => [.tell (.returns none) (.flush s)]
  | .terminate code => [.tell (.returns none) (.exit code)]
  | .tempDir => []

/-- Held bytes come before a text, if there can be any. -/
def settleActs (h : Host) (s : Stream) : List Act := if h.textOnly then [.release h s] else []

def hostActs (h : Host) : SinkOp → List Act
  | .write s text => settleActs h s ++ [.format text, .tell h.write (.write s text)]
  | .writeBytes s bytes =>
    match h.writeBytes with
    | some conduct => [.tell conduct (.writeBytes s bytes)]
    | none => [.assemble h s bytes]
  | .putChar s c =>
    settleActs h s ++
      match h.putChar with
      | some conduct => [.tell conduct (.putChar s c)]
      | none => [.tell h.write (.write s c.toString)]
  | .flush s => [.tell h.flush (.flush s)]
  | .terminate code =>
    [.release h .stdout, .release h .stderr, .note (.handingOver code),
     .tell h.exit (.exit code)]
  | .tempDir =>
    match h.tempDir with
    | none => []
    | some (.returns none) =>
      [.tell (.returns none) .tempDir, .note (.callbackFailed .tempDir wrongKind)]
    | some conduct => [.tell conduct .tempDir]

/-- What a sink does for an operation. -/
def acts : Option Sink → SinkOp → List Act
  | none => fun _ => []
  | some (.memory _) => memoryActs
  | some .direct => directActs
  | some .plain => plainActs
  | some (.host h) => hostActs h

-- =================================================== operations are their acts

variable {react : React} {st : Session}

theorem performAll_append (react : React) (st : Session) (as bs : List Act) :
    Act.performAll react st (as ++ bs)
      = Act.performAll react (Act.performAll react st as) bs :=
  List.foldl_append

theorem performAll_settleActs (react : React) (h : Host) (s : Stream) (st : Session) :
    Act.performAll react st (settleActs h s) = st.settle react h s := by
  unfold settleActs Session.settle
  split_ifs <;> rfl

theorem perform_memoryActs {dir : Option String} (hs : st.sink = some (.memory dir))
    (op : SinkOp) : (op.perform react st).2 = Act.performAll react st op.memoryActs := by
  cases op with
  | write s text => simp only [perform, Session.sinkWrite, hs]; rfl
  | writeBytes s bytes => simp only [perform, Session.sinkWriteBytes, hs]; rfl
  | putChar s c => simp only [perform, Session.sinkPutChar, hs]; rfl
  | flush s => simp only [perform, Session.sinkFlush, hs]; rfl
  | terminate code => simp only [perform, Session.sinkTerminate, hs]; rfl
  | tempDir => cases dir <;> simp only [perform, Session.sinkTempDir, hs] <;> rfl

theorem perform_directActs (hs : st.sink = some .direct) (op : SinkOp) :
    (op.perform react st).2 = Act.performAll react st op.directActs := by
  cases op with
  | write s text => simp only [perform, Session.sinkWrite, hs]; rfl
  | writeBytes s bytes => simp only [perform, Session.sinkWriteBytes, hs]; rfl
  | putChar s c => simp only [perform, Session.sinkPutChar, hs]; rfl
  | flush s => simp only [perform, Session.sinkFlush, hs]; rfl
  | terminate code => simp only [perform, Session.sinkTerminate, hs]; rfl
  | tempDir => simp only [perform, Session.sinkTempDir, hs]; rfl

theorem perform_plainActs (hs : st.sink = some .plain) (op : SinkOp) :
    (op.perform react st).2 = Act.performAll react st op.plainActs := by
  cases op with
  | write s text => simp only [perform, Session.sinkWrite, hs]; rfl
  | writeBytes s bytes => simp only [perform, Session.sinkWriteBytes, hs]; rfl
  | putChar s c => simp only [perform, Session.sinkPutChar, hs]; rfl
  | flush s => simp only [perform, Session.sinkFlush, hs]; rfl
  | terminate code => simp only [perform, Session.sinkTerminate, hs]; rfl
  | tempDir => simp only [perform, Session.sinkTempDir, hs]; rfl

theorem perform_hostActs {h : Host} (hs : st.sink = some (.host h)) (op : SinkOp) :
    (op.perform react st).2 = Act.performAll react st (hostActs h op) := by
  cases op with
  | write s text =>
    rw [hostActs, performAll_append, performAll_settleActs]
    simp only [perform, Session.sinkWrite, hs]
    rfl
  | writeBytes s bytes =>
    simp only [perform, Session.sinkWriteBytes, hs, hostActs]
    cases h.writeBytes with
    | none => rfl
    | some conduct => rfl
  | putChar s c =>
    rw [hostActs, performAll_append, performAll_settleActs]
    simp only [perform, Session.sinkPutChar, hs]
    cases h.putChar with
    | none => rfl
    | some conduct => rfl
  | flush s => simp only [perform, Session.sinkFlush, hs]; rfl
  | terminate code => simp only [perform, Session.sinkTerminate, hs]; rfl
  | tempDir =>
    obtain ⟨_, _, _, _, _, dir⟩ := h
    obtain _ | (_ | _) | _ | _ | _ := dir <;> simp only [perform, Session.sinkTempDir, hs] <;> rfl

/-- An operation on a sink is its acts, whatever the host does in between. -/
theorem perform_acts (react : React) (st : Session) (op : SinkOp) :
    (op.perform react st).2 = Act.performAll react st (op.acts st.sink) := by
  cases hs : st.sink with
  | none =>
    cases op <;> simp only [perform, Session.sinkWrite, Session.sinkWriteBytes,
      Session.sinkPutChar, Session.sinkFlush, Session.sinkTerminate, Session.sinkTempDir, hs]
      <;> rfl
  | some sink =>
    cases sink with
    | memory dir => exact perform_memoryActs hs op
    | direct => exact perform_directActs hs op
    | plain => exact perform_plainActs hs op
    | host h => exact perform_hostActs hs op

end SinkOp

-- ===================================================== acts up to their call

namespace Session

/-- A host is called, unless what it registered is no function. -/
def beginCall (st : Session) (conduct : Conduct) (call : Call) :
    Session × Option (Conduct × Call) :=
  match conduct with
  | .notCallable => (st.note (.callbackFailed call.callback wrongKind), none)
  | _ => (st.record (.called call), some (conduct, call))

/-- A host function has come back. -/
def endCall (st : Session) (conduct : Conduct) (call : Call) : Session :=
  match conduct.report? call with
  | none => st
  | some report => st.note (.callbackFailed call.callback report)

end Session

namespace Act

open Session

/-- An act up to the call that it makes, if it makes one. -/
def begin (st : Session) : Act → Session × Option (Conduct × Call)
  | .release h s =>
    let held := st.store.held.get s
    if held.isEmpty then (st, none)
    else (st.hold s []).beginCall h.write (.write s (String.ofList (Utf8.lossy held)))
  | .assemble h s bytes =>
    let drained := Utf8.drain (st.store.held.get s ++ bytes)
    let after := st.hold s drained.2
    if drained.1.isEmpty then (after, none)
    else after.beginCall h.write (.write s (String.ofList drained.1))
  | .tell conduct call => st.beginCall conduct call
  | a => (a.perform idle st, none)

/-- The rest of an act whose beginning is done. -/
def resume (react : React) : Session × Option (Conduct × Call) → Session
  | (st, none) => st
  | (st, some (conduct, call)) => (react call.callback st).endCall conduct call

theorem resume_beginCall (react : React) (st : Session) (conduct : Conduct) (call : Call) :
    resume react (st.beginCall conduct call) = st.callHost react conduct call := by
  cases conduct <;> rfl

theorem perform_begin (react : React) (st : Session) (a : Act) :
    a.perform react st = resume react (a.begin st) := by
  cases a with
  | release h s =>
    unfold Act.perform begin Session.release hostWrite
    dsimp only
    split_ifs
    · rfl
    · exact (resume_beginCall ..).symm
  | assemble h s bytes =>
    unfold Act.perform begin Session.assemble hostWrite
    dsimp only
    split_ifs
    · rfl
    · exact (resume_beginCall ..).symm
  | tell conduct call => exact (resume_beginCall ..).symm
  | format _ | collect _ _ | emitDirect _ _ | countFlush | flushDirect _ | keepExitCode _
  | note _ => rfl

end Act

-- ============================================== what output leaves as it was

/-- Two sessions that agree in all but what a sink keeps and what is recorded of output:
output may have come between them. -/
def Session.SameButOutput (st st' : Session) : Prop :=
  ∃ store events notices formatted, st' = { st with store, events, notices, formatted }

namespace Session.SameButOutput

variable {st st' st'' : Session}

theorem refl (st : Session) : SameButOutput st st := ⟨_, _, _, _, rfl⟩

theorem trans (h : SameButOutput st st') (h' : SameButOutput st' st'') :
    SameButOutput st st'' := by
  obtain ⟨_, _, _, _, rfl⟩ := h
  obtain ⟨store, events, notices, formatted, rfl⟩ := h'
  exact ⟨store, events, notices, formatted, rfl⟩

theorem hold (s : Stream) (bytes : List UInt8) (st : Session) :
    SameButOutput st (st.hold s bytes) := ⟨_, _, _, _, rfl⟩

theorem rebuffer (s : Stream) (next : LineBuffer → LineBuffer) (st : Session) :
    SameButOutput st (st.rebuffer s next) := by
  cases s <;> exact ⟨_, _, _, _, rfl⟩

theorem beginCall (conduct : Conduct) (call : Call) (st : Session) :
    SameButOutput st (st.beginCall conduct call).1 := by
  cases conduct <;> exact ⟨_, _, _, _, rfl⟩

theorem endCall (conduct : Conduct) (call : Call) (st : Session) :
    SameButOutput st (st.endCall conduct call) := by
  unfold Session.endCall
  split
  · exact refl st
  · exact ⟨_, _, _, _, rfl⟩

/-- Before it calls the host, an act of a sink makes output and nothing else. -/
theorem begin (st : Session) (a : Act) : SameButOutput st (a.begin st).1 := by
  cases a with
  | release h s =>
    unfold Act.begin
    dsimp only
    split_ifs
    · exact refl st
    · exact (hold s [] st).trans (beginCall ..)
  | assemble h s bytes =>
    unfold Act.begin
    dsimp only
    split_ifs
    · exact hold s _ st
    · exact (hold s _ st).trans (beginCall ..)
  | tell conduct call => exact beginCall ..
  | emitDirect s bytes =>
    show SameButOutput st (st.emitDirect s bytes)
    unfold emitDirect
    split_ifs
    · exact refl st
    · have hcollect : SameButOutput st (st.collect s bytes) := ⟨_, _, _, _, rfl⟩
      exact hcollect.trans (rebuffer ..)
  | flushDirect s => exact rebuffer s (·.flush) st
  | format _ | collect _ _ | countFlush | keepExitCode _ | note _ => exact ⟨_, _, _, _, rfl⟩

end Session.SameButOutput

end ScanTrace
