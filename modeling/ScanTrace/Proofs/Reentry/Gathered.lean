/-
Where held bytes come from. Of the bytes that the sink was asked to write to
a stream, some wait in the topmost frame to be put together with those that
are held. What is held and what waits, in this order, is always the end of
what was asked for, counted from any moment at which there was neither
(`Run.gathered`). So whatever is put together from there on comes from what
was asked for from there on.

Bytes wait in the topmost frame only: the act that puts them together is the
first and the only one of its operation, so it is behind as soon as the frame
waits for a call (`assemble_notMem`).
-/
import ScanTrace.Proofs.Reentry.Remainder
import ScanTrace.Proofs.Hosted.Transcript
import ScanTrace.Proofs.Utf8.Beginnings

namespace ScanTrace

open Session

-- =================================================================== bytes

/-- The bytes that a sink was asked to write to a stream. -/
def bytesAsked (s : Stream) (trace : List Label) : List UInt8 :=
  trace.flatMap fun
    | .asks (.writeBytes r bytes) => if r = s then bytes else []
    | _ => []

/-- The bytes for a stream that a frame is about to put together with those held. -/
def Frame.due (s : Stream) (f : Frame) : List UInt8 :=
  match f.call, f.acts with
  | none, .assemble _ r bytes :: _ => if r = s then bytes else []
  | _, _ => []

def Moment.due (s : Stream) (m : Moment) : List UInt8 :=
  match m.frames with
  | [] => []
  | f :: _ => f.due s

/-- Bytes for a stream, those held and those about to be put together with them. -/
def Moment.gathered (s : Stream) (m : Moment) : List UInt8 := m.st.store.held.get s ++ m.due s

theorem Frame.due_of_call {s : Stream} {f : Frame} (hcall : f.call.isSome = true) :
    f.due s = [] := by
  obtain ⟨waited, acts, ds⟩ := f
  cases waited with
  | none => cases hcall
  | some waited => rfl

theorem Frame.due_of_notMem {s : Stream} {f : Frame}
    (hacts : ∀ h r bytes, .assemble h r bytes ∉ f.acts) : f.due s = [] := by
  unfold Frame.due
  split
  · next h r bytes as _ heq =>
    refine absurd ?_ (hacts h r bytes)
    rw [heq]
    exact List.mem_cons_self
  · rfl

theorem Moment.due_of_waits {s : Stream} {m : Moment} (hw : m.Waits) : m.due s = [] := by
  obtain ⟨frames, st⟩ := m
  cases frames with
  | nil => rfl
  | cons f fs => exact Frame.due_of_call hw

theorem Act.heldAfter_suffix (a : Act) (as : List Act) (ds : List Deed) (s : Stream)
    (held : List UInt8) : a.heldAfter s held <:+ held ++ Frame.due s ⟨none, a :: as, ds⟩ := by
  have hsame : held <:+ held ++ [] := by rw [List.append_nil]
  cases a with
  | release h r =>
    show (if r = s then [] else held) <:+ held ++ []
    split_ifs
    · exact List.nil_suffix
    · exact hsame
  | assemble h r bytes =>
    show (if r = s then (Utf8.drain (held ++ bytes)).2 else held)
      <:+ held ++ if r = s then bytes else []
    split_ifs
    · exact Utf8.feed_snd_suffix [] _
    · exact hsame
  | format _ | tell _ _ | collect _ _ | emitDirect _ _ | countFlush | flushDirect _
  | keepExitCode _ | note _ => exact hsame

section Bytes

variable {h : Host} {past since : List Label} {l : Label} {m m' : Moment} {s : Stream}

/-- Bytes are put together by the first act of an operation and by no other. -/
theorem assemble_notMem {op : SinkOp} {done as : List Act}
    (hdone : op.acts (some (.host h)) = done ++ as) (hne : done ≠ []) (h' : Host) (r : Stream)
    (bytes : List UInt8) : .assemble h' r bytes ∉ as := by
  intro hmem
  have hall : .assemble h' r bytes ∈ SinkOp.hostActs h op := by
    show _ ∈ op.acts (some (.host h))
    rw [hdone]
    exact List.mem_append_right _ hmem
  have hone : [Act.assemble h r bytes] = done ++ as :=
    (SinkOp.hostActs_of_assemble hall).2.2.symm.trans hdone
  have hlength := congrArg List.length hone
  have hdone' := List.length_pos_of_ne_nil hne
  have has := List.length_pos_of_mem hmem
  rw [List.length_append, List.length_singleton] at hlength
  omega

theorem due_acts (ht : h.textOnly = true) (op : SinkOp) (ds : List Deed) :
    Frame.due s ⟨none, op.acts (some (.host h)), ds⟩ = bytesAsked s [.asks op] := by
  show Frame.due s ⟨none, SinkOp.hostActs h op, ds⟩ = _
  have hnone : (∀ r bytes, op ≠ .writeBytes r bytes) →
      Frame.due s ⟨none, SinkOp.hostActs h op, ds⟩ = [] := by
    intro hop
    refine Frame.due_of_notMem ?_
    intro h' r bytes hmem
    have hacts : .assemble h' r bytes ∈ SinkOp.hostActs h op := hmem
    exact hop r bytes (SinkOp.hostActs_of_assemble hacts).2.1
  cases op with
  | writeBytes r bytes =>
    rw [show SinkOp.hostActs h (.writeBytes r bytes) = [.assemble h r bytes] by
      simp only [SinkOp.hostActs, writeBytes_of_textOnly ht]]
    exact (List.append_nil _).symm
  | write _ _ | putChar _ _ | flush _ | terminate _ | tempDir =>
    refine hnone ?_
    intro r bytes heq
    cases heq

/-- What is gathered at a moment is the end of what was asked for since another. -/
structure Gathers (h : Host) (s : Stream) (past since : List Label) (m : Moment) : Prop where
  sink : m.st.sink = some (.host h)
  stacked : Stacked (past ++ since) m
  gathered : m.gathered s <:+ bytesAsked s since

theorem Gathers.gathered_step (hg : Gathers h s past since m) (ht : h.textOnly = true)
    (hmove : Move l m m') : m'.gathered s <:+ bytesAsked s (since ++ [l]) := by
  have hasked : bytesAsked s (since ++ [l]) = bytesAsked s since ++ bytesAsked s [l] :=
    List.flatMap_append
  -- a label without bytes: it is enough that nothing comes in
  have hless : bytesAsked s [l] = [] → m'.gathered s <:+ m.gathered s →
      m'.gathered s <:+ bytesAsked s (since ++ [l]) := by
    intro hnone hsub
    rw [hasked, hnone, List.append_nil]
    exact hsub.trans hg.gathered
  have hsink := hg.sink
  have hbefore := hg.gathered
  unfold Moment.gathered at hless hbefore ⊢
  cases hmove with
  | start u hw =>
    refine hless rfl ?_
    rw [Moment.due_of_waits hw]
    exact List.suffix_rfl
  | aside _ ha =>
    refine hless rfl ?_
    show PerStream.get _ s ++ _ <:+ _
    rw [ha.held]
    exact List.suffix_rfl
  | @ask guard op ds fs st _ =>
    have hdue : Frame.due s ⟨none, op.acts st.sink, ds⟩ = bytesAsked s [.asks op] := by
      rw [show st.sink = some (.host h) from hsink]
      exact due_acts ht op ds
    rw [hasked]
    show st.store.held.get s ++ Frame.due s ⟨none, op.acts st.sink, ds⟩ <:+ _
    rw [hdue]
    have hheld : st.store.held.get s ++ [] <:+ bytesAsked s since := hbefore
    rw [List.append_nil] at hheld
    obtain ⟨front, hfront⟩ := hheld
    exact ⟨front, by rw [← List.append_assoc, hfront]⟩
  | drop _ | refuse _ | close _ | mark | form => exact hless rfl List.suffix_rfl
  | @act a as ds fs st =>
    refine hless rfl ?_
    obtain ⟨op, -, done, hdone, -⟩ := hg.stacked.left _ List.mem_cons_self (List.cons_ne_nil a as)
    rw [show st.sink = some (.host h) from hsink] at hdone
    have hdone' : op.acts (some (.host h)) = (done ++ [a]) ++ as := by
      rw [hdone, List.append_assoc]
      rfl
    have hdue : Frame.due s ⟨(a.begin st).2, as, ds⟩ = [] :=
      Frame.due_of_notMem (assemble_notMem hdone' (by simp))
    show (a.begin st).1.store.held.get s ++ Frame.due s ⟨(a.begin st).2, as, ds⟩ <:+ _
    rw [hdue, List.append_nil, a.held_begin st s]
    exact a.heldAfter_suffix as ds s _
  | @back conduct call as ds fs st =>
    refine hless rfl ?_
    have hdue : Frame.due s ⟨none, as, ds⟩ = [] := by
      refine Frame.due_of_notMem ?_
      intro h' r bytes hmem
      obtain ⟨op, -, done, hdone, hne⟩ :=
        hg.stacked.left _ List.mem_cons_self (List.ne_nil_of_mem hmem)
      rw [show st.sink = some (.host h) from hsink] at hdone
      exact assemble_notMem hdone (hne rfl) h' r bytes hmem
    show (st.endCall conduct call).store.held.get s ++ Frame.due s ⟨none, as, ds⟩ <:+ _
    rw [hdue, store_endCall]
    exact List.suffix_rfl
  | @finish fs st =>
    refine hless rfl ?_
    have hwaits : Moment.Waits ⟨fs, st⟩ := by
      cases fs with
      | nil => trivial
      | cons f fs => exact hg.stacked.waits f List.mem_cons_self
    rw [Moment.due_of_waits hwaits]
    exact List.suffix_rfl

theorem Gathers.step (hg : Gathers h s past since m) (ht : h.textOnly = true)
    (hmove : Move l m m') : Gathers h s past (since ++ [l]) m' where
  sink := hmove.sink.trans hg.sink
  stacked := by
    rw [← List.append_assoc]
    exact hg.stacked.step hmove
  gathered := hg.gathered_step ht hmove

theorem Run.gathered (hrun : Run m since m') (ht : h.textOnly = true)
    (hsink : m.st.sink = some (.host h)) (hstack : Stacked past m) (hnone : m.gathered s = []) :
    m'.gathered s <:+ bytesAsked s since := by
  have hstart : Gathers h s past [] m := by
    refine ⟨hsink, ?_, ?_⟩
    · rwa [List.append_nil]
    · rw [hnone]
      exact List.nil_suffix
  exact (hrun.invariant (fun hpast hmove => hpast.step ht hmove) hstart).gathered

end Bytes

end ScanTrace
