/-
Programs are runs of steps. An operation that is performed with a reaction
goes through the moments of Machine.lean and ends where it is said to end,
provided that the reaction can be played, that is, that what it does in the
turn of the host is a run as well (`Playable`). The reaction of a host whose
functions have steps waiting for them is played by induction on the depth to
which calls can nest (`playable_react`), and so every program is a run
(`run_reached`).

`Reaches P` is a run in which nothing is started but what `P` allows; who
only asks whether there is a run takes `fun _ => True`.
-/
import ScanTrace.Proofs.Reentry.Machine

namespace ScanTrace

open Session

/-- There is a run, and what is started in it is allowed. -/
def Reaches (P : Use → Prop) (m m' : Moment) : Prop :=
  ∃ trace, Run m trace m' ∧ ∀ u, .starts u ∈ trace → P u

namespace Reaches

variable {P : Use → Prop} {m m' m'' : Moment}

theorem refl (m : Moment) : Reaches P m m := ⟨[], .nil m, fun _ h => nomatch h⟩

theorem trans (h : Reaches P m m') (h' : Reaches P m' m'') : Reaches P m m'' := by
  obtain ⟨trace, hrun, hP⟩ := h
  obtain ⟨trace', hrun', hP'⟩ := h'
  refine ⟨trace ++ trace', hrun.append hrun', ?_⟩
  intro u hu
  rcases List.mem_append.mp hu with hu | hu
  · exact hP u hu
  · exact hP' u hu

theorem step {l : Label} (h : Move l m m') (hl : ∀ u, l = .starts u → P u) :
    Reaches P m m' := by
  refine ⟨[l], .single h, ?_⟩
  intro u hu
  exact hl u (List.mem_singleton.mp hu).symm

theorem silent (h : Move .silent m m') : Reaches P m m' := step h (fun _ hl => nomatch hl)

theorem sink (h : Reaches P m m') : m'.st.sink = m.st.sink := by
  obtain ⟨trace, hrun, -⟩ := h
  exact hrun.sink

theorem sink_isSome (h : Reaches P m m') (hsink : m.st.sink.isSome = true) :
    m'.st.sink.isSome = true := by
  rw [h.sink]
  exact hsink

end Reaches

/-- A reaction that is a run whenever it is the turn of the host. -/
def Playable (P : Use → Prop) (react : React) : Prop :=
  ∀ (m : Moment) (callback : Callback), m.Waits → m.st.sink.isSome = true →
    Reaches P m ⟨m.frames, react callback m.st⟩

theorem playable_idle (P : Use → Prop) : Playable P idle := fun m _ _ _ => Reaches.refl m

-- ============================================================== operations

section Operations

variable {P : Use → Prop} {react : React} {st : Session} {fs : List Frame} {ds : List Deed}

theorem reaches_act (hr : Playable P react) (hsink : st.sink.isSome = true) (a : Act)
    (as : List Act) :
    Reaches P ⟨⟨none, a :: as, ds⟩ :: fs, st⟩ ⟨⟨none, as, ds⟩ :: fs, a.perform react st⟩ := by
  have hact : Reaches P ⟨⟨none, a :: as, ds⟩ :: fs, st⟩
      ⟨⟨(a.begin st).2, as, ds⟩ :: fs, (a.begin st).1⟩ := .silent .act
  have hsink' : (a.begin st).1.sink.isSome = true := hact.sink_isSome hsink
  refine hact.trans ?_
  rw [Act.perform_begin]
  rcases he : a.begin st with ⟨st', _ | ⟨conduct, call⟩⟩
  · exact .refl _
  · rw [he] at hsink'
    have hplay := hr ⟨⟨some (conduct, call), as, ds⟩ :: fs, st'⟩ call.callback rfl hsink'
    exact hplay.trans (.silent .back)

theorem reaches_acts (hr : Playable P react) (hsink : st.sink.isSome = true) (as : List Act) :
    Reaches P ⟨⟨none, as, ds⟩ :: fs, st⟩
      ⟨⟨none, [], ds⟩ :: fs, Act.performAll react st as⟩ := by
  induction as generalizing st with
  | nil => exact .refl _
  | cons a as ih =>
    have ha : Reaches P ⟨⟨none, a :: as, ds⟩ :: fs, st⟩
        ⟨⟨none, as, ds⟩ :: fs, a.perform react st⟩ := reaches_act hr hsink a as
    exact ha.trans (ih (ha.sink_isSome hsink))

theorem reaches_ask (hr : Playable P react) (hsink : st.sink.isSome = true)
    {guard : Option Console} (hguard : ∀ c, guard = some c → st.isSealed c = false)
    (op : SinkOp) :
    Reaches P ⟨⟨none, [], .ask guard op :: ds⟩ :: fs, st⟩
      ⟨⟨none, [], ds⟩ :: fs, (op.perform react st).2⟩ := by
  rw [SinkOp.perform_acts]
  exact Reaches.trans (.step (.ask hguard) fun _ hl => nomatch hl) (reaches_acts hr hsink _)

theorem reaches_ask_always (hr : Playable P react) (hsink : st.sink.isSome = true)
    (op : SinkOp) :
    Reaches P ⟨⟨none, [], .ask none op :: ds⟩ :: fs, st⟩
      ⟨⟨none, [], ds⟩ :: fs, (op.perform react st).2⟩ := by
  refine reaches_ask hr hsink ?_ op
  intro c hc
  cases hc

theorem reaches_mark (c : Console) (code : Int32) :
    Reaches P ⟨⟨none, [], .mark c code :: ds⟩ :: fs, st⟩
      ⟨⟨none, [], ds⟩ :: fs, (st.markSealed c).note (.terminating code)⟩ :=
  .step .mark fun _ hl => nomatch hl

theorem reaches_close (hr : Playable P react) (hsink : st.sink.isSome = true) (c : Console)
    (code : Int32) :
    Reaches P ⟨⟨none, [], .close c code :: ds⟩ :: fs, st⟩
      ⟨⟨none, [], ds⟩ :: fs, c.terminate react code st⟩ := by
  cases hs : st.isSealed c with
  | true =>
    rw [c.terminate_sealed react hs]
    exact .silent (.refuse hs)
  | false =>
    rw [Console.terminate_closing react hs]
    have hclose : Reaches P ⟨⟨none, [], .close c code :: ds⟩ :: fs, st⟩
        ⟨⟨none, [], Deed.closing c code ++ ds⟩ :: fs, st⟩ :=
      .step (.close hs) fun _ hl => nomatch hl
    have hstdout := hclose.trans (reaches_ask_always hr hsink (.flush .stdout))
    have hstderr := hstdout.trans
      (reaches_ask_always hr (hstdout.sink_isSome hsink) (.flush .stderr))
    have hmark := hstderr.trans (reaches_mark c code)
    exact hmark.trans (reaches_ask_always hr (hmark.sink_isSome hsink) (.terminate code))

theorem reaches_deed (hr : Playable P react) (hsink : st.sink.isSome = true) (d : Deed) :
    Reaches P ⟨⟨none, [], d :: ds⟩ :: fs, st⟩
      ⟨⟨none, [], ds⟩ :: fs, d.perform react st⟩ := by
  cases d with
  | ask guard op =>
    cases guard with
    | none => exact reaches_ask_always hr hsink op
    | some c =>
      cases hs : st.isSealed c with
      | true =>
        rw [Deed.perform_ask_sealed react hs]
        exact .silent (.drop hs)
      | false =>
        rw [Deed.perform_ask_open react hs]
        refine reaches_ask hr hsink ?_ op
        intro c' hc'
        cases hc'
        exact hs
  | close c code => exact reaches_close hr hsink c code
  | mark c code => exact reaches_mark c code
  | form text => exact .silent .form

theorem reaches_deeds (hr : Playable P react) (hsink : st.sink.isSome = true)
    (ds : List Deed) :
    Reaches P ⟨⟨none, [], ds⟩ :: fs, st⟩
      ⟨⟨none, [], []⟩ :: fs, Deed.performAll react st ds⟩ := by
  induction ds generalizing st with
  | nil => exact .refl _
  | cons d ds ih =>
    have hd : Reaches P ⟨⟨none, [], d :: ds⟩ :: fs, st⟩
        ⟨⟨none, [], ds⟩ :: fs, d.perform react st⟩ := reaches_deed hr hsink d
    exact hd.trans (ih (hd.sink_isSome hsink))

/-- An operation that is performed with a reaction is a run from its start to its
end. -/
theorem reaches_use (hr : Playable P react) {m : Moment} (hw : m.Waits)
    (hsink : m.st.sink.isSome = true) {u : Use} (hu : P u) :
    Reaches P m ⟨m.frames, (u.perform react m.st).2⟩ := by
  have hstart : Reaches P m (m.start u) := by
    refine .step (.start u hw) ?_
    intro u' hu'
    cases hu'
    exact hu
  rw [Use.perform_deeds]
  exact hstart.trans ((reaches_deeds hr hsink u.deeds).trans (.silent .finish))

end Operations

-- ================================================================= programs

namespace Aside

variable {st st' : Session}

theorem refl (st : Session) : Aside st st :=
  ⟨rfl, rfl, rfl, rfl, rfl, rfl, rfl, [], (List.append_nil _).symm, fun _ h => nomatch h⟩

theorem noteAll (st : Session) (ns : List Notice) : Aside st (st.noteAll ns) :=
  ⟨rfl, rfl, rfl, rfl, rfl, rfl, rfl, [], (List.append_nil _).symm, fun _ h => nomatch h⟩

theorem tracers (h : Aside st st') (ts : List Tracer) : Aside st { st' with tracers := ts } :=
  ⟨h.env, h.sink, h.sealedFamilies, h.formatted, h.held, h.flushes, h.exitCode, h.events⟩

theorem waiting (st : Session) (ws : List (Callback × List Op)) :
    Aside st { st with waiting := ws } :=
  ⟨rfl, rfl, rfl, rfl, rfl, rfl, rfl, [], (List.append_nil _).symm, fun _ h => nomatch h⟩

theorem reacted (st : Session) (callback : Callback) (reply : Reply) :
    Aside st (st.record (.reacted callback reply)) := by
  refine ⟨rfl, rfl, rfl, rfl, rfl, rfl, rfl, [.reacted callback reply], rfl, ?_⟩
  intro e he
  exact ⟨callback, reply, List.mem_singleton.mp he⟩

theorem install (h : st.sink.isSome = true) (sink : Sink) : Aside st (st.install sink).2 := by
  unfold Session.install
  rw [if_pos h]
  exact noteAll st [.installRefused]

theorem makeTracer (levels fields : List String) (st : Session) :
    Aside st (Embedding.makeTracer levels fields st).2 := by
  unfold Embedding.makeTracer
  split
  · exact refl st
  · dsimp only
    split
    · exact noteAll st _
    · exact (noteAll st _).tracers _

theorem take (s : Stream) (st : Session) : Aside st (st.take s).2 := by
  unfold Session.take
  split
  · exact ⟨rfl, rfl, rfl, rfl, rfl, rfl, rfl, [], (List.append_nil _).symm, fun _ h => nomatch h⟩
  · exact refl st

end Aside

/-- What a step of a program comes to: an operation that is started, or something
that output has no part in. -/
def ComesTo (react : React) (st st' : Session) : Prop :=
  (∃ u : Use, st' = (u.perform react st).2) ∨ Aside st st'

namespace ComesTo

variable {react : React} {st : Session}

theorem same : ComesTo react st st := .inr (Aside.refl st)

theorem trace (t : Tracer) (call : TraceCall) :
    ComesTo react st (t.perform react call st) := .inl ⟨.trace t call, rfl⟩

theorem installRequest (hsink : st.sink.isSome = true) (request : SinkRequest) :
    ComesTo react st (st.installRequest request).2 := by
  unfold Session.installRequest
  split
  · exact same
  · exact .inr (Aside.install hsink _)

theorem redirect (hsink : st.sink.isSome = true) (functions : List (String × Option Conduct)) :
    ComesTo react st (Embedding.redirect functions st).2 := by
  unfold Embedding.redirect
  split
  · exact same
  · exact installRequest hsink _

theorem request (t : Tracer) (r : Embedding.Request) :
    ComesTo react st (r.perform react t st).2 := by
  cases r with
  | isEnabled level | emit level message | emitUnit level raw =>
    unfold Embedding.Request.perform
    dsimp only
    split
    · exact same
    · first
      | exact trace t _
      | exact same
  | trace call => exact trace t call
  | tagFound tag path => exact trace t _

theorem method (tracer : Option Nat) (name : String) (arguments : Embedding.Arguments) :
    ComesTo react st (Embedding.callMethod react tracer name arguments st).2 := by
  unfold Embedding.callMethod
  split
  · exact same
  · split
    · exact same
    · split
      · exact same
      · exact request _ _

theorem needingTracer (hsink : st.sink.isSome = true)
    {act : Tracer → Session → Reply × Session} (h : ∀ t, ComesTo react st (act t st).2) :
    ComesTo react st (st.needingTracer act).2 := by
  unfold Session.needingTracer Session.needingSink
  rw [if_pos hsink]
  dsimp only
  split
  · exact same
  · exact h _

theorem step (hsink : st.sink.isSome = true) (op : Op) :
    ComesTo react st (op.perform react st).2 := by
  have hneeding : ∀ act : Session → Reply × Session, st.needingSink act = act st :=
    fun act => if_pos hsink
  cases op with
  | isInstalled => exact same
  | version => exact same
  | install request => exact installRequest hsink request
  | redirect functions =>
    have h : ComesTo react st (Embedding.redirect functions st).2 := redirect hsink functions
    simp only [Op.perform]
    split
    · next he => rwa [he] at h
    · exact h
  | newTracer arguments =>
    simp only [Op.perform, Embedding.newTracer]
    split
    · exact same
    · exact .inr (Aside.makeTracer ..)
  | method tracer name arguments => exact method tracer name arguments
  | sink op =>
    simp only [Op.perform, hneeding]
    exact .inl ⟨.sink op, rfl⟩
  | console c op =>
    simp only [Op.perform, hneeding]
    exact .inl ⟨.console c op, rfl⟩
  | useTracer t =>
    simp only [Op.perform, hneeding]
    exact .inr ((Aside.refl st).tracers _)
  | tracerState => exact needingTracer hsink fun _ => same
  | isEnabled level => exact needingTracer hsink fun _ => same
  | lineBreak => exact needingTracer hsink fun _ => same
  | trace call => exact needingTracer hsink fun t => trace t call
  | tagFound tag path => exact needingTracer hsink fun t => trace t _
  | take s =>
    simp only [Op.perform, hneeding]
    exact .inr (Aside.take s st)

end ComesTo

theorem reaches_step {react : React} (hr : Playable (fun _ => True) react) {m : Moment}
    (hw : m.Waits) (hsink : m.st.sink.isSome = true) (op : Op) :
    Reaches (fun _ => True) m ⟨m.frames, (op.perform react m.st).2⟩ := by
  have hop : ComesTo react m.st (op.perform react m.st).2 := .step hsink op
  rcases hop with ⟨u, hu⟩ | haside
  · rw [hu]
    exact reaches_use hr hw hsink trivial
  · exact .silent (.aside hw haside)

/-- What host functions do with the steps that wait for them is played, to any
depth. -/
theorem playable_react (n : Nat) : Playable (fun _ => True) (Session.react n) := by
  induction n with
  | zero => exact fun m _ _ _ => .refl m
  | succ n ih =>
    intro m callback hw hsink
    unfold Session.react Session.takeReaction
    cases m.st.waiting.find? fun e => e.1 == callback with
    | none => exact .refl m
    | some e =>
      dsimp only
      have htaken : Reaches (fun _ => True) m
          ⟨m.frames, { m.st with waiting := m.st.waiting.eraseP fun e => e.1 == callback }⟩ :=
        .silent (.aside hw (Aside.waiting ..))
      refine htaken.trans ?_
      have hsink' := htaken.sink_isSome hsink
      generalize { m.st with waiting := m.st.waiting.eraseP fun e => e.1 == callback } = st
        at hsink'
      -- the steps of the list, each followed by the record of its answer
      induction e.2 generalizing st with
      | nil => exact .refl _
      | cons op steps ihs =>
        have hop := reaches_step ih (m := ⟨m.frames, st⟩) hw hsink' op
        have hanswered := hop.trans (.silent (.aside hw
          (Aside.reacted _ callback (op.perform (Session.react n) st).1)))
        exact hanswered.trans (ihs _ (hanswered.sink_isSome hsink'))

-- ================================================================= programs

theorem Step.reaches (step : Step) {st : Session} (hsink : st.sink.isSome = true) :
    Reaches (fun _ => True) ⟨[], st⟩ ⟨[], (step.perform st).2⟩ := by
  have hop := reaches_step (playable_react st.waiting.length) (m := ⟨[], st⟩) trivial hsink
    step.op
  have hsome : st.sink.isNone = false := by
    rw [← Option.not_isSome, hsink]
    rfl
  unfold Step.perform
  dsimp only
  rw [hsome, Bool.false_and, if_neg Bool.false_ne_true]
  exact hop

/-- Whatever a program does once there is a sink is a run of steps. -/
theorem run_reached {st : Session} (hsink : st.sink.isSome = true) (steps : List Step) :
    Reaches (fun _ => True) ⟨[], st⟩ ⟨[], (run st steps).2⟩ := by
  induction steps generalizing st with
  | nil => exact .refl _
  | cons step rest ih =>
    have hstep := step.reaches hsink
    unfold run
    dsimp only
    split_ifs
    · exact hstep
    · exact hstep.trans (ih (hstep.sink_isSome hsink))

end ScanTrace
