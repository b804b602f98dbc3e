/-
Sinks that append what they are given: memory, and the process if both of
its streams take bytes. Each operation has its bytes on a stream
(`SinkOp.bytesOn`), a flush and the end of the run have none, and after any
run what a stream collected is the bytes of the script, joined.

Standard output of the process waits in a buffer, so what was written need
not have left. When the run was ended last, it has (`delivered_of_ended`): the
end flushes, and a sealed console writes nothing more.
-/
import ScanTrace.Program
import ScanTrace.Proofs.Hosted.Run

namespace ScanTrace

open Session

/-- Sinks that append what they are given. -/
inductive Appends (env : Environment) : Sink → Prop where
  | memory (dir : Option String) : Appends env (.memory dir)
  | direct : env.full = none → Appends env .direct

/-- The bytes of an operation on a stream. -/
def SinkOp.bytesOn (s : Stream) : SinkOp → List UInt8
  | .write r text => if r = s then bytesOf text else []
  | .writeBytes r bytes => if r = s then bytes else []
  | .putChar r c => if r = s then Utf8.encode [c] else []
  | .flush _ | .terminate _ | .tempDir => []

-- ============================================================== collecting

/-- What a stream has collected, in an environment that stays as it is. -/
structure Collects (s : Stream) (env : Environment) (st : Session) (bytes : List UInt8) :
    Prop where
  env : st.env = env
  written : st.store.written.get s = bytes

namespace Collects

variable {s : Stream} {env : Environment} {st : Session} {bytes : List UInt8}

theorem collect (hc : Collects s env st bytes) (r : Stream) (more : List UInt8) :
    Collects s env (st.collect r more) (bytes ++ if r = s then more else []) where
  env := hc.env
  written := by
    rw [← hc.written]
    split_ifs with hr
    · subst hr
      exact PerStream.get_set_self ..
    · rw [List.append_nil]
      exact PerStream.get_set_of_ne _ _ (Ne.symm hr)

theorem rebuffer (hc : Collects s env st bytes) (r : Stream) (next : LineBuffer → LineBuffer) :
    Collects s env (st.rebuffer r next) bytes := by
  cases r with
  | stdout => exact ⟨hc.env, hc.written⟩
  | stderr => exact hc

/-- A stream of the process that takes bytes collects them. -/
theorem emitDirect (hfull : env.full = none) (hc : Collects s env st bytes) (r : Stream)
    (more : List UInt8) :
    Collects s env (st.emitDirect r more) (bytes ++ if r = s then more else []) := by
  have hopen : st.env.full ≠ some r := by
    rw [hc.env, hfull]
    exact nofun
  unfold Session.emitDirect
  rw [if_neg hopen]
  exact (hc.collect r more).rebuffer r _

theorem format (hc : Collects s env st bytes) (text : String) :
    Collects s env (st.format text) bytes := ⟨hc.env, hc.written⟩

theorem unchanged (hc : Collects s env st bytes) : Collects s env st (bytes ++ []) := by
  rwa [List.append_nil]

end Collects

section Tracking

variable {s : Stream} {env : Environment}

theorem tracks_memory (dir : Option String) :
    Tracks (.memory dir) (fun bytes op => bytes ++ op.bytesOn s) (Collects s env) where
  perform := by
    intro st bytes hsink hc op
    rw [SinkOp.perform_memoryActs hsink]
    cases op with
    | write r text => exact (hc.format text).collect r _
    | writeBytes r more => exact hc.collect r more
    | putChar r c => exact hc.collect r _
    | flush r => exact Collects.unchanged ⟨hc.env, hc.written⟩
    | terminate code => exact Collects.unchanged ⟨hc.env, hc.written⟩
    | tempDir => exact hc.unchanged
  markSealed hc _ := ⟨hc.env, hc.written⟩
  note hc _ := ⟨hc.env, hc.written⟩

theorem tracks_direct (hfull : env.full = none) :
    Tracks .direct (fun bytes op => bytes ++ op.bytesOn s) (Collects s env) where
  perform := by
    intro st bytes hsink hc op
    rw [SinkOp.perform_directActs hsink]
    cases op with
    | write r text => exact (hc.format text).emitDirect hfull r _
    | writeBytes r more => exact hc.emitDirect hfull r more
    | putChar r c => exact hc.emitDirect hfull r _
    | flush r => exact (hc.rebuffer r _).unchanged
    | terminate code =>
      have hflushed := (hc.rebuffer .stdout (·.flush)).rebuffer .stderr (·.flush)
      exact Collects.unchanged ⟨hflushed.env, hflushed.written⟩
    | tempDir => exact hc.unchanged
  markSealed hc _ := ⟨hc.env, hc.written⟩
  note hc _ := ⟨hc.env, hc.written⟩

/-- Memory has behind what it had the bytes of what it was asked for, joined. -/
theorem SinkOp.written_performAll_memory {st : Session} {dir : Option String}
    (hsink : st.sink = some (.memory dir)) (s : Stream) (ops : List SinkOp) :
    (SinkOp.performAll idle st ops).store.written.get s
      = st.store.written.get s ++ ops.flatMap (·.bytesOn s) := by
  have hstart : Collects s st.env st (st.store.written.get s) := ⟨rfl, rfl⟩
  have hend := (tracks_memory dir).performAll hsink hstart ops
  rw [hend.written, List.foldl_append_eq_append]
  rfl

/-- What a stream collects in a run is the bytes of its script, joined. -/
theorem written_run {sink : Sink} (ha : Appends env sink) (c : Console) (ops : List ConsoleOp)
    (s : Stream) :
    (ConsoleOp.performAll idle c { env := env, sink := some sink } ops).store.written.get s
      = (ConsoleOp.script false ops).flatMap (·.bytesOn s) := by
  have hstart : Collects s env { env := env, sink := some sink } [] := by
    refine ⟨rfl, ?_⟩
    cases s <;> rfl
  have hend : Collects s env (ConsoleOp.performAll idle c { env := env, sink := some sink } ops)
      ((ConsoleOp.script false ops).foldl (fun bytes op => bytes ++ op.bytesOn s) []) := by
    cases ha with
    | memory dir => exact (tracks_memory dir).run rfl hstart ops
    | direct hfull => exact (tracks_direct hfull).run rfl hstart ops
  rw [hend.written, List.flatMap_eq_foldl]

end Tracking

-- ============================================================= the last flush

/-- Whether nothing was written since the run was ended. -/
def SinkOp.restsAfter (rests : Bool) : SinkOp → Bool
  | .terminate _ => true
  | .flush _ | .tempDir => rests
  | .write .. | .writeBytes .. | .putChar .. => false

/-- While output rests, nothing waits in front of the process. -/
def Drained (st : Session) (rests : Bool) : Prop :=
  rests = true → st.store.buffer.waiting = 0

theorem waiting_rebuffer_flush {st : Session} (h : st.store.buffer.waiting = 0) (r : Stream) :
    (st.rebuffer r (·.flush)).store.buffer.waiting = 0 := by
  cases r with
  | stdout => rfl
  | stderr => exact h

theorem tracks_drained : Tracks .direct SinkOp.restsAfter Drained where
  perform := by
    intro st rests hsink hd op
    rw [SinkOp.perform_directActs hsink]
    cases op with
    | write r text => exact nofun
    | writeBytes r more => exact nofun
    | putChar r c => exact nofun
    | flush r => exact fun h => waiting_rebuffer_flush (hd h) r
    | terminate code => exact fun _ => rfl
    | tempDir => exact hd
  markSealed hd _ := hd
  note hd _ := hd

theorem tracks_unbuffered (dir : Option String) :
    Tracks (.memory dir) (fun (_ : Unit) _ => ()) (fun st _ => st.store.buffer.waiting = 0) where
  perform := by
    intro st _ hsink hd op
    rw [SinkOp.perform_memoryActs hsink]
    cases op <;> exact hd
  markSealed hd _ := hd
  note hd _ := hd

/-- All that was written has left when a run was ended last. -/
theorem delivered_of_ended {env : Environment} {sink : Sink} (ha : Appends env sink) (c : Console)
    (ops : List ConsoleOp) (code : Int32) (s : Stream) :
    let after := ConsoleOp.performAll idle c { env := env, sink := some sink }
      (ops ++ [.terminate code])
    after.delivered s = after.store.written.get s := by
  intro after
  have hwaiting : after.store.buffer.waiting = 0 := by
    cases ha with
    | memory dir => exact (tracks_unbuffered dir).run (a := ()) rfl rfl _
    | direct hfull =>
      have hstart : Drained { env := env, sink := some .direct } true := fun _ => rfl
      have hend := tracks_drained.run (c := c) rfl hstart (ops ++ [.terminate code])
      have hrests : (ConsoleOp.script false (ops ++ [.terminate code])).foldl
          SinkOp.restsAfter true = true :=
        ConsoleOp.foldl_script_ended (I := fun _ => True) (P := fun rests => rests = true)
          (fun _ => rfl) (fun _ _ _ => trivial) (fun _ _ _ _ _ _ _ => trivial)
          (fun _ _ _ => rfl) trivial
      exact hend hrests
  have hsent : ∀ written, after.store.buffer.sent written = written := by
    intro written
    simp [LineBuffer.sent, hwaiting]
  cases s with
  | stdout =>
    unfold Session.delivered
    dsimp only
    split_ifs
    · rfl
    · exact hsent _
  | stderr => rfl

end ScanTrace
