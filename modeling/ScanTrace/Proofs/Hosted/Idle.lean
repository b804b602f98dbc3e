/-
Hosts that do not call back. Such a host gets its calls and leaves the
session alone, so a sequence of operations is a fold over them and each
operation can be looked at by itself.

What output never touches is said once (`Keeps`): the environment, the choice
of the sink, the sealed consoles. The other lemmas say what a call of the
host leaves behind, and what a release of held bytes does.
-/
import ScanTrace.Proofs.Acts

namespace ScanTrace

/-- Operations on a sink, one after another. -/
def SinkOp.performAll (react : React) (st : Session) (ops : List SinkOp) : Session :=
  ops.foldl (fun st op => (op.perform react st).2) st

open Session

-- ============================================== what output leaves as it was

/-- Two sessions with the same surroundings: output may have come between them. -/
structure Keeps (st st' : Session) : Prop where
  env : st'.env = st.env
  sink : st'.sink = st.sink
  sealedFamilies : st'.sealedFamilies = st.sealedFamilies

namespace Keeps

variable {st st' st'' : Session}

theorem refl (st : Session) : Keeps st st := ⟨rfl, rfl, rfl⟩

theorem trans (h : Keeps st st') (h' : Keeps st' st'') : Keeps st st'' :=
  ⟨h'.env.trans h.env, h'.sink.trans h.sink, h'.sealedFamilies.trans h.sealedFamilies⟩

theorem isSealed (h : Keeps st st') (c : Console) : st'.isSealed c = st.isSealed c := by
  unfold Session.isSealed
  rw [h.sealedFamilies]

theorem ofOutput (h : SameButOutput st st') : Keeps st st' := by
  obtain ⟨_, _, _, _, rfl⟩ := h
  exact ⟨rfl, rfl, rfl⟩

theorem hold (s : Stream) (bytes : List UInt8) (st : Session) : Keeps st (st.hold s bytes) :=
  ofOutput (SameButOutput.hold s bytes st)

theorem endCall (conduct : Conduct) (call : Call) (st : Session) :
    Keeps st (st.endCall conduct call) := ofOutput (SameButOutput.endCall conduct call st)

/-- No act of a sink touches the surroundings before it calls the host. -/
theorem begin (st : Session) (a : Act) : Keeps st (a.begin st).1 :=
  ofOutput (SameButOutput.begin st a)

theorem act (st : Session) (a : Act) : Keeps st (a.perform idle st) := by
  have hbegin := begin st a
  rw [Act.perform_begin]
  generalize a.begin st = half at hbegin ⊢
  rcases half with ⟨st', _ | ⟨conduct, call⟩⟩
  · exact hbegin
  · exact hbegin.trans (endCall ..)

theorem acts (st : Session) (as : List Act) : Keeps st (Act.performAll idle st as) := by
  induction as generalizing st with
  | nil => exact refl st
  | cons a as ih => exact (act st a).trans (ih _)

theorem perform (st : Session) (op : SinkOp) : Keeps st (op.perform idle st).2 := by
  rw [SinkOp.perform_acts]
  exact acts st _

theorem performAll (st : Session) (ops : List SinkOp) :
    Keeps st (SinkOp.performAll idle st ops) := by
  induction ops generalizing st with
  | nil => exact refl st
  | cons op ops ih => exact (perform st op).trans (ih _)

end Keeps

/-- The rest of an act behind the call that it makes is at most a notice. -/
theorem Act.perform_idle (st : Session) (a : Act) :
    ∃ ns, a.perform idle st = (a.begin st).1.noteAll ns := by
  rw [Act.perform_begin]
  rcases a.begin st with ⟨st', _ | ⟨conduct, call⟩⟩
  · exact ⟨[], by simp [Act.resume, noteAll]⟩
  · show ∃ ns, st'.endCall conduct call = st'.noteAll ns
    unfold Session.endCall
    split
    · exact ⟨[], by simp [noteAll]⟩
    · exact ⟨[_], rfl⟩

-- ===================================================== what the host received

/-- The text that a call hands over on a stream. -/
def Call.textOn (s : Stream) : Call → List Char
  | .write t text => if t = s then text.toList else []
  | .putChar t c => if t = s then [c] else []
  | _ => []

def Event.textOn (s : Stream) : Event → List Char
  | .called call => call.textOn s
  | .reacted .. => []

/-- What an event comes to when calls are read in some way. -/
def Event.gather {α : Type} (read : Call → List α) : Event → List α
  | .called call => read call
  | .reacted .. => []

namespace Session

/-- All that the host received, its calls read in some way, in order. -/
def gather {α : Type} (read : Call → List α) (st : Session) : List α :=
  st.events.flatMap (Event.gather read)

/-- All text that the host received on a stream, in order. -/
def heard (st : Session) (s : Stream) : List Char := st.events.flatMap (·.textOn s)

variable {α : Type} {read : Call → List α} {h : Host} {conduct : Conduct}

/-- A call of an idle host leaves its event, and beside it at most a notice. -/
theorem callHost_idle_cases (hc : conduct ≠ .notCallable) (call : Call) (st : Session) :
    st.callHost idle conduct call = st.record (.called call)
      ∨ ∃ n, st.callHost idle conduct call = (st.record (.called call)).note n := by
  cases conduct with
  | returns text => exact .inl rfl
  | fails report => exact .inr ⟨_, rfl⟩
  | failsWithArgument kind => exact .inr ⟨_, rfl⟩
  | notCallable => exact absurd rfl hc

theorem events_callHost (hc : conduct ≠ .notCallable) (call : Call) (st : Session) :
    (st.callHost idle conduct call).events = st.events ++ [.called call] := by
  obtain he | ⟨n, he⟩ := callHost_idle_cases hc call st
  · rw [he]
    rfl
  · rw [he]
    rfl

theorem gather_callHost (hc : conduct ≠ .notCallable) (call : Call) (st : Session) :
    (st.callHost idle conduct call).gather read = st.gather read ++ read call := by
  unfold gather
  rw [events_callHost hc, List.flatMap_append, List.flatMap_singleton]
  rfl

/-- A call that is read as nothing changes nothing, whether it is made or not. -/
theorem gather_callHost_of_eq_nil {call : Call} (hcall : read call = []) (st : Session) :
    (st.callHost idle conduct call).gather read = st.gather read := by
  by_cases hc : conduct = .notCallable
  · subst hc
    rfl
  · rw [gather_callHost hc, hcall, List.append_nil]

theorem heard_eq_gather (st : Session) (s : Stream) : st.heard s = st.gather (Call.textOn s) := by
  have hevent : (Event.textOn s) = Event.gather (Call.textOn s) := by
    funext e
    cases e <;> rfl
  unfold heard gather
  rw [← hevent]

theorem heard_callHost (hc : conduct ≠ .notCallable) (call : Call) (st : Session) (s : Stream) :
    (st.callHost idle conduct call).heard s = st.heard s ++ call.textOn s := by
  rw [heard_eq_gather, heard_eq_gather, gather_callHost hc]

theorem heard_callHost_of_textOn_eq_nil {call : Call} {s : Stream} (hcall : call.textOn s = [])
    (st : Session) : (st.callHost idle conduct call).heard s = st.heard s := by
  rw [heard_eq_gather, heard_eq_gather, gather_callHost_of_eq_nil hcall]

theorem store_callHost (st : Session) (conduct : Conduct) (call : Call) :
    (st.callHost idle conduct call).store = st.store := by
  cases conduct <;> rfl

-- ======================================================= held bytes released

theorem held_hold (st : Session) (r : Stream) (bytes : List UInt8) (s : Stream) :
    (st.hold r bytes).store.held.get s = if r = s then bytes else st.store.held.get s := by
  show (st.store.held.set r bytes).get s = _
  split_ifs with hr
  · subst hr
    exact PerStream.get_set_self ..
  · exact PerStream.get_set_of_ne _ _ (Ne.symm hr)

theorem held_release (h : Host) (r : Stream) (st : Session) (s : Stream) :
    (st.release idle h r).store.held.get s = if r = s then [] else st.store.held.get s := by
  unfold release
  dsimp only
  split_ifs with he hr hr
  · subst hr
    exact List.isEmpty_iff.mp he
  · rfl
  · rw [hostWrite, store_callHost, held_hold, if_pos hr]
  · rw [hostWrite, store_callHost, held_hold, if_neg hr]

theorem heard_release (hw : h.write ≠ .notCallable) (r : Stream) (st : Session) (s : Stream) :
    (st.release idle h r).heard s
      = st.heard s ++ if r = s then Utf8.lossy (st.store.held.get s) else [] := by
  unfold release
  dsimp only
  split_ifs with he hr hr
  · subst hr
    rw [List.isEmpty_iff.mp he, Utf8.lossy_nil, List.append_nil]
  · rw [List.append_nil]
  · subst hr
    rw [hostWrite, heard_callHost hw]
    simp [Call.textOn, heard, hold]
  · rw [hostWrite, heard_callHost hw]
    simp [Call.textOn, heard, hold, hr]

end Session

end ScanTrace
