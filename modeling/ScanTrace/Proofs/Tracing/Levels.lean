/-
Runs of trace calls under a choice of levels. A tracer that traces some of
the levels does with a list of calls what a tracer of all levels does with
those of them that are enabled. The others leave no mark of any kind: they
are not put into form, they release nothing that is held back and they
flush nothing, so no later call can tell that they were made.

Both runs are the same work, call after call (`performAll_work`): what a call
puts into form and asks of the console in front of the sink depends on the
tracer's console and on its fields, and its level decides only whether it
does so at all. So nothing has to be known of the sink, of its state or of
what a host does in its functions.
-/
import ScanTrace.Proofs.Hosted.Run

namespace ScanTrace

open Session

namespace Tracer

/-- Trace calls, one after another. -/
def performAll (react : React) (t : Tracer) (st : Session) (calls : List TraceCall) : Session :=
  calls.foldl (fun st call => t.perform react call st) st

-- ============================================================= calls by work

/-- What a call does does not depend on the levels. -/
theorem work_levels (t : Tracer) (levels : LevelSet) (call : TraceCall) :
    ({ t with levels } : Tracer).work call = t.work call := by
  cases call with
  | emitUnit level unit => cases unit <;> rfl
  | _ => rfl

/-- A run of trace calls is the work of those that are enabled. -/
theorem performAll_work (react : React) (t : Tracer) (st : Session) (calls : List TraceCall) :
    t.performAll react st calls
      = Deed.performAll react st
          ((calls.filter fun call => t.isEnabled call.level).flatMap t.work) := by
  induction calls generalizing st with
  | nil => rfl
  | cons call calls ih =>
    show t.performAll react (t.perform react call st) calls = _
    rw [ih, t.perform_deeds]
    unfold Tracer.deeds
    rw [List.filter_cons]
    by_cases hc : t.isEnabled call.level = true
    · rw [if_pos hc, if_pos hc, List.flatMap_cons]
      exact (List.foldl_append ..).symm
    · rw [if_neg hc, if_neg hc]
      rfl

/-- What a call makes of a session through a console that is not sealed, over a host that
does not call back. -/
def unguarded (t : Tracer) (st : Session) (call : TraceCall) : Session :=
  SinkOp.performAll idle (st.formatAll (t.rendered call)) (t.requests call)

theorem keeps_unguarded (t : Tracer) (st : Session) (call : TraceCall) :
    Keeps st (t.unguarded st call) := by
  have hformed : Keeps st (st.formatAll (t.rendered call)) := ⟨rfl, rfl, rfl⟩
  exact hformed.trans (Keeps.performAll _ _)

theorem performAll_work_open {t : Tracer} {st : Session} (hopen : st.isSealed t.console = false)
    (call : TraceCall) : Deed.performAll idle st (t.work call) = t.unguarded st call := by
  have hforms : Deed.performAll idle st ((t.rendered call).map .form)
      = st.formatAll (t.rendered call) := by
    cases call with
    | tagEntry tag inHeader => rfl
    | _ => exact st.formatAll_nil.symm
  unfold work unguarded
  rw [← hforms, ← ConsoleOp.performAll_guarded (c := t.console)]
  · exact List.foldl_append
  · rw [hforms]
    exact hopen

/-- Trace calls over a host that does not call back: their entries are put into form, and
what is asked for reaches the sink, all of it or nothing. -/
theorem performAll_work_idle (t : Tracer) (st : Session) (calls : List TraceCall) :
    Deed.performAll idle st (calls.flatMap t.work)
      = if st.isSealed t.console then st.formatAll (calls.flatMap t.rendered)
        else calls.foldl t.unguarded st := by
  cases hs : st.isSealed t.console with
  | true =>
    have hsilent : ∀ d ∈ calls.flatMap t.work, d.Silent st := by
      intro d hd
      obtain ⟨call, -, hd⟩ := List.mem_flatMap.mp hd
      exact t.silent_work hs d hd
    rw [Deed.performAll_silent idle hsilent, List.flatMap_assoc, List.flatMap_assoc]
    simp only [flatMap_farewell_work, flatMap_formed_work]
    rw [List.flatMap_eq_nil_iff.mpr fun _ _ => rfl]
    exact congrArg (Session.formatAll · _) st.noteAll_nil
  | false =>
    induction calls generalizing st with
    | nil => rfl
    | cons call calls ih =>
      rw [List.flatMap_cons, Deed.performAll, List.foldl_append]
      show Deed.performAll idle (Deed.performAll idle st (t.work call)) _ = _
      rw [performAll_work_open hs]
      exact ih _ (((keeps_unguarded t st call).isSealed _).trans hs)

/-- Calls that are traced, none of them for an entry, ask for what they ask for and do
nothing else. -/
theorem performAll_of_enabled {t : Tracer} {st : Session} (hopen : st.isSealed t.console = false)
    {calls : List TraceCall} (henabled : ∀ call ∈ calls, t.isEnabled call.level = true)
    (hplain : ∀ call ∈ calls, t.rendered call = []) :
    t.performAll idle st calls = SinkOp.performAll idle st (calls.flatMap t.requests) := by
  rw [performAll_work, List.filter_eq_self.mpr henabled, performAll_work_idle, hopen,
    if_neg Bool.false_ne_true]
  clear hopen henabled
  induction calls generalizing st with
  | nil => rfl
  | cons call calls ih =>
    have hcall : t.unguarded st call = SinkOp.performAll idle st (t.requests call) := by
      rw [unguarded, hplain call List.mem_cons_self, formatAll_nil]
    rw [List.foldl_cons, hcall, ih fun c hc => hplain c (List.mem_cons_of_mem _ hc),
      List.flatMap_cons]
    exact List.foldl_append.symm

end Tracer

-- ================================================================== levels

/-- A tracer of some levels makes of any list of calls, in any state of any sink
and whatever the host does in its functions, what a tracer of all levels
makes of the calls at those levels. A call at another level changes nothing;
and where the host does not call back, the sink is asked for what the calls at
those levels say, in their order, unless the console is sealed; then they leave
the entries among them in form and no more. -/
theorem disabled_levels_have_no_effect (react : React) (t : Tracer) (L : List Level)
    (st : Session) (calls : List TraceCall) :
    let traced : Tracer := { t with levels := .ofList L }
    let tracesAll : Tracer := { t with levels := .full }
    let enabled := calls.filter fun call => call.level ∈ L
    traced.performAll react st calls = tracesAll.performAll react st enabled
      ∧ (∀ call, call.level ∉ L → traced.perform react call st = st)
      ∧ traced.performAll idle st calls
          = if st.isSealed t.console then st.formatAll (enabled.flatMap t.rendered)
            else enabled.foldl (fun st call =>
              SinkOp.performAll idle (st.formatAll (t.rendered call)) (t.requests call)) st := by
  intro traced tracesAll enabled
  have hgate : ∀ call : TraceCall, traced.isEnabled call.level = decide (call.level ∈ L) := by
    intro call
    rw [Bool.eq_iff_iff, decide_eq_true_iff]
    exact LevelSet.has_ofList L call.level
  have hopen : (enabled.filter fun call => tracesAll.isEnabled call.level) = enabled :=
    List.filter_eq_self.mpr fun call _ => LevelSet.has_full call.level
  have htraced : ∀ react, traced.performAll react st calls
      = Deed.performAll react st (enabled.flatMap t.work) := by
    intro react
    rw [Tracer.performAll_work, List.filter_congr fun call _ => hgate call,
      show traced.work = t.work from funext (t.work_levels _)]
  have hall : tracesAll.performAll react st enabled
      = Deed.performAll react st (enabled.flatMap t.work) := by
    rw [Tracer.performAll_work, hopen, show tracesAll.work = t.work from funext (t.work_levels _)]
  refine ⟨(htraced react).trans hall.symm, ?_, ?_⟩
  · intro call hcall
    refine if_neg ?_
    rw [hgate, decide_eq_true_iff]
    exact hcall
  · rw [htraced idle]
    exact t.performAll_work_idle st enabled

end ScanTrace
