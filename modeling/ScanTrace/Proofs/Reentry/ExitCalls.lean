/-
The exits that a host is told of. A host is called for an exit only by the
request to its sink that asks for one, so it receives no more exits than
were requested. Between the request and the call the code waits in the frame
of the request (`announced`), and while it does, the host may be called for
what was held back, and ask for other exits: the codes received and the
codes waiting are together at most those requested (`Covered`), in whatever
order they come.
-/
import ScanTrace.Proofs.Reentry.Ending
import ScanTrace.Proofs.Reentry.Remainder

namespace ScanTrace

open Session
open scoped List

-- ============================================================ exit codes

/-- The exit code that a call hands over. -/
def Call.exit? : Call → Option Int32
  | .exit code => some code
  | _ => none

def Event.exit? : Event → Option Int32
  | .called call => call.exit?
  | .reacted .. => none

def Act.exit? : Act → Option Int32
  | .tell _ call => call.exit?
  | _ => none

/-- The exit codes that the host received. -/
def Session.exitCalls (st : Session) : List Int32 := st.events.filterMap Event.exit?

/-- The exit codes that the host has still to receive for what was requested. -/
def announced (fs : List Frame) : List Int32 := fs.flatMap fun f => f.acts.filterMap Act.exit?

/-- A sink tells its host of an exit only if it was asked to. -/
theorem SinkOp.exit_acts_sublist (sink : Option Sink) (op : SinkOp) :
    (op.acts sink).filterMap Act.exit? <+ exits [.asks op] := by
  have hsettle : ∀ h s, (settleActs h s).filterMap Act.exit? = [] := by
    intro h s
    unfold settleActs
    split_ifs <;> rfl
  cases sink with
  | none => exact List.nil_sublist _
  | some sink =>
    cases sink with
    | memory dir => cases op <;> exact List.nil_sublist _
    | direct => cases op <;> exact List.nil_sublist _
    | plain => cases op <;> exact List.Sublist.refl _
    | host h =>
      cases op with
      | write s text =>
        show (settleActs h s ++ _).filterMap Act.exit? <+ _
        rw [List.filterMap_append, hsettle]
        exact List.nil_sublist _
      | writeBytes s bytes =>
        show (hostActs h (.writeBytes s bytes)).filterMap Act.exit? <+ _
        unfold hostActs
        dsimp only
        split <;> exact List.nil_sublist _
      | putChar s c =>
        show (settleActs h s ++ _).filterMap Act.exit? <+ _
        rw [List.filterMap_append, hsettle]
        split <;> exact List.nil_sublist _
      | flush s => exact List.nil_sublist _
      | terminate code => exact List.Sublist.refl _
      | tempDir =>
        show (hostActs h .tempDir).filterMap Act.exit? <+ _
        unfold hostActs
        dsimp only
        split <;> exact List.nil_sublist _

/-- An act hands over an exit only if it is to tell of one. -/
theorem exitCalls_begin (st : Session) (a : Act) :
    (a.begin st).1.exitCalls <+ st.exitCalls ++ a.exit?.toList := by
  rcases a.events_begin st with hsame | ⟨call, hevents, hcause⟩
  · unfold Session.exitCalls
    rw [hsame]
    exact List.sublist_append_left _ _
  · have hcalled : (a.begin st).1.exitCalls = st.exitCalls ++ call.exit?.toList := by
      unfold Session.exitCalls
      rw [hevents, List.filterMap_append]
      cases hcall : call.exit? <;> simp [Event.exit?, hcall]
    rw [hcalled]
    rcases hcause with ⟨conduct, rfl⟩ | ⟨s, text, rfl, -⟩
    · exact List.Sublist.refl _
    · exact (List.Sublist.refl _).append (List.nil_sublist _)

theorem Aside.exitCalls {st st' : Session} (h : Aside st st') : st'.exitCalls = st.exitCalls := by
  obtain ⟨more, hevents, hmore⟩ := h.events
  have hnone : more.filterMap Event.exit? = [] := by
    rw [List.filterMap_eq_nil_iff]
    intro e he
    obtain ⟨callback, reply, rfl⟩ := hmore e he
    rfl
  unfold Session.exitCalls
  rw [hevents, List.filterMap_append, hnone, List.append_nil]

/-- The exits that a host received and is still to receive were requested. -/
def Covered (before : List Int32) (past : List Label) (m : Moment) : Prop :=
  m.st.exitCalls ++ announced m.frames <+~ before ++ exits past

theorem Covered.step {before : List Int32} {past : List Label} {m m' : Moment} {l : Label}
    (h : Covered before past m) (hmove : Move l m m') : Covered before (past ++ [l]) m' := by
  have hlater : before ++ exits past <+ before ++ exits (past ++ [l]) := by
    rw [exits_append, ← List.append_assoc]
    exact List.sublist_append_left _ _
  -- what was due stays due, and nothing else is
  have hsame : m'.st.exitCalls ++ announced m'.frames <+ m.st.exitCalls ++ announced m.frames →
      Covered before (past ++ [l]) m' :=
    fun hsub => (hsub.subperm.trans h).trans hlater.subperm
  cases hmove with
  | start u _ => exact hsame (List.Sublist.refl _)
  | aside _ ha =>
    refine hsame ?_
    rw [ha.exitCalls]
  | @ask guard op ds fs st _ =>
    have hacts := SinkOp.exit_acts_sublist st.sink op
    show st.exitCalls ++ ((op.acts st.sink).filterMap Act.exit? ++ announced fs)
      <+~ before ++ exits (past ++ [.asks op])
    have hdue : st.exitCalls ++ announced fs <+~ before ++ exits past := h
    have hperm : (st.exitCalls ++ ((op.acts st.sink).filterMap Act.exit? ++ announced fs)).Perm
        ((st.exitCalls ++ announced fs) ++ (op.acts st.sink).filterMap Act.exit?) := by
      rw [List.append_assoc]
      exact List.perm_append_comm.append_left _
    rw [exits_append, ← List.append_assoc before]
    exact hperm.subperm.trans (hdue.append hacts.subperm)
  | drop _ | refuse _ | close _ | mark | form | finish => exact hsame (List.Sublist.refl _)
  | @act a as ds fs st =>
    refine hsame ?_
    show (a.begin st).1.exitCalls ++ (as.filterMap Act.exit? ++ announced fs)
      <+ st.exitCalls ++ ((a :: as).filterMap Act.exit? ++ announced fs)
    have hsplit : (a :: as).filterMap Act.exit? = a.exit?.toList ++ as.filterMap Act.exit? := by
      cases ha : a.exit? <;> simp [ha]
    rw [hsplit, List.append_assoc, ← List.append_assoc st.exitCalls]
    exact (exitCalls_begin st a).append (List.Sublist.refl _)
  | @back conduct call as ds fs st =>
    refine hsame ?_
    have hend : (st.endCall conduct call).exitCalls = st.exitCalls := by
      unfold Session.endCall
      split <;> rfl
    show (st.endCall conduct call).exitCalls ++ _ <+ _
    rw [hend]
    exact List.Sublist.refl _

/-- A host's exit is called no more often than the sink is asked to terminate. -/
theorem Run.exitCalls_subperm {st : Session} {trace : List Label} {m : Moment}
    (h : Run ⟨[], st⟩ trace m) : m.st.exitCalls <+~ st.exitCalls ++ exits trace := by
  have hstart : Covered st.exitCalls [] ⟨[], st⟩ := List.Subperm.refl _
  have hend := h.invariant (fun hpast hmove => hpast.step hmove) hstart
  exact (List.sublist_append_left _ _).subperm.trans hend

end ScanTrace
