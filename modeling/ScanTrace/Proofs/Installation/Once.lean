/-
The one installation of a process. Whatever a process does, in whatever
order, the first step that comes to ask for a sink gives it its sink, and
every step before and every step behind finds the process in one of two
states.

- Before, there is nothing but the environment (`Session.Uninstalled`): no
  console and no tracer can be got hold of, whoever asks for one is told that
  nothing is installed, and an installation succeeds.
- Behind, the sink stays (`Session.Installed`): every further installation is
  refused in the same words, whether the console has been sealed or not, and
  leaves nothing but a notice of the refusal; and to end the run through a
  console seals all its clones for good.

Which step is the first is read off the steps alone (`Op.sink?`). A step
comes to ask for a sink if its arguments fit and its host can be built; a
host of functions given by name always can, because a call that leaves out
one of the required functions does not fit (`host_of_registration`).
-/
import ScanTrace.Proofs.Installation.Handles
import ScanTrace.Proofs.Reentry.Sealing

namespace ScanTrace

open Session

-- ================================================================= requests

/-- The sink that an operation comes to ask for. -/
def Op.sink? : Op → Option Sink
  | .install request => request.sink.toOption
  | .redirect functions => do
    let r ← (Embedding.registration functions).toOption
    let h ← r.host.toOption
    return .host h
  | _ => none

/-- A host that registered what it has to can be built. -/
theorem Registration.host_of_some {r : Registration} {write flush exit : Conduct}
    (hwrite : r.write = some write) (hflush : r.flush = some flush) (hexit : r.exit = some exit) :
    ∃ h, r.host = .ok h := by
  unfold host
  rw [hwrite, hflush, hexit]
  exact ⟨_, rfl⟩

namespace Embedding

/-- Arguments by name that fit are those of the parameters, and the required ones are
there. -/
theorem bind_named {α : Type} {parameters : List Parameter} {named : List (String × α)}
    {args : List (Option α)} (h : bind parameters [] named = .ok args) :
    args = parameters.map (fun p => named.lookup p.name)
      ∧ ∀ p ∈ parameters, p.required = true → (named.lookup p.name).isSome = true := by
  unfold bind at h
  dsimp only at h
  split_ifs at h with hlong hunknown hmissing
  cases h
  refine ⟨rfl, ?_⟩
  intro p hp hrequired
  have hgiven : ∀ p ∈ parameters, p.required = true → ∃ a, (p.name, a) ∈ named := by
    simpa using hmissing
  obtain ⟨a, ha⟩ := hgiven p hp hrequired
  exact List.lookup_isSome_iff.mpr ⟨(p.name, a), ha, beq_self_eq_true _⟩

/-- A host of functions that are given by name can be built. -/
theorem host_of_registration {functions : List (String × Option Conduct)} {r : Registration}
    (h : registration functions = .ok r) : ∃ host, r.host = .ok host := by
  unfold registration at h
  cases hbind : bind redirectParameters [] functions with
  | error fault =>
    rw [hbind] at h
    cases h
  | ok args =>
    obtain ⟨hargs, hrequired⟩ := bind_named hbind
    have hgiven : ∀ name, ⟨name, true⟩ ∈ redirectParameters →
        ∃ f, functions.lookup name = some f := fun name hname =>
      Option.isSome_iff_exists.mp (hrequired ⟨name, true⟩ hname rfl)
    obtain ⟨write, hwrite⟩ := hgiven "write" (by simp [redirectParameters])
    obtain ⟨flush, hflush⟩ := hgiven "flush" (by simp [redirectParameters])
    obtain ⟨exit, hexit⟩ := hgiven "exit" (by simp [redirectParameters])
    rw [hbind, hargs] at h
    cases h
    exact Registration.host_of_some (congrArg requiredFunction hwrite)
      (congrArg requiredFunction hflush) (congrArg requiredFunction hexit)

end Embedding

-- ============================================================== the two states

/-- A process without a sink. -/
structure Session.Uninstalled (st : Session) : Prop where
  sink : st.sink = none
  console : st.console = .error .notInstalled
  handles : st.handles = []
  isInstalled : ∀ react, Op.isInstalled.perform react st = (.flag false, st)
  /-- The first installation succeeds. -/
  attempt : ∀ (react : React) (op : Op) (sink : Sink), op.sink? = some sink →
    (∀ why, (op.perform react st).1 ≠ .failed why) ∧ (op.perform react st).2.sink = some sink
      ∧ (op.perform react st).2.console = .ok .main
  /-- A tracer is refused, whatever levels and fields it is to have. -/
  tracer : ∀ (arguments : Embedding.Arguments) (names : List String × List String),
    Embedding.tracerNames arguments = .ok names →
    Embedding.newTracer arguments st = (.failed .notInstalled, st)
  use : ∀ (react : React) (c : Console) (op : ConsoleOp),
    (Op.console c op).perform react st = (.failed .notInstalled, st)

/-- A process with a sink. -/
structure Session.Installed (sink : Sink) (st : Session) : Prop where
  sink : st.sink = some sink
  console : st.console = .ok .main
  isInstalled : ∀ react, Op.isInstalled.perform react st = (.flag true, st)
  /-- Every further installation is refused, and nothing is changed. -/
  attempt : ∀ (react : React) (op : Op) (sink' : Sink), op.sink? = some sink' →
    op.perform react st = (.failed .alreadyInstalled, st.note .installRefused)
  /-- A tracer is made on the console of the process, unless its levels and fields are not
  there. -/
  tracer : ∀ (arguments : Embedding.Arguments) (names : List String × List String),
    Embedding.tracerNames arguments = .ok names →
    (∃ why, (Embedding.newTracer arguments st).1 = .failed (.rejected why)
        ∧ (Embedding.newTracer arguments st).2.tracers = st.tracers)
      ∨ ∃ t, t.console = .main ∧ (Embedding.newTracer arguments st).1 = .done
        ∧ (Embedding.newTracer arguments st).2.tracers = st.tracers ++ [t]
  use : ∀ (react : React) (c : Console) (op : ConsoleOp),
    (Op.console c op).perform react st = op.perform react c st
  /-- To end the run through a console seals its clones, whatever comes afterwards. -/
  terminate : ∀ (c : Console) (code : Int32) (reactions : List (Callback × List Op))
    (later : List Step) (c' : Console), c'.family = c.family →
    (run st ({ op := .console c (.terminate code), reactions } :: later)).2.isSealed c' = true

namespace Session

variable {st : Session}

theorem sink_openTracer (st : Session) : st.openTracer.sink = st.sink := by
  unfold openTracer
  split
  · rfl
  · rfl
  · dsimp only
    split <;> rfl

theorem install_of_none (h : st.sink = none) (sink : Sink) :
    (st.install sink).1 = .installed ∧ (st.install sink).2.sink = some sink := by
  unfold install
  rw [h]
  exact ⟨rfl, sink_openTracer _⟩

theorem install_of_some {sink : Sink} (h : st.sink = some sink) (sink' : Sink) :
    st.install sink' = (.failed .alreadyInstalled, st.note .installRefused) := by
  unfold install
  rw [h]
  rfl

theorem console_of_some {sink : Sink} (h : st.sink = some sink) : st.console = .ok .main := by
  unfold console
  rw [h]
  rfl

end Session

theorem toOption_eq_some_iff {ε α : Type} {x : Except ε α} {a : α} :
    x.toOption = some a ↔ x = .ok a := by
  cases x <;> simp [Except.toOption]

/-- A redirection that comes to ask for a sink is an installation. -/
theorem Embedding.redirect_of_sink? {functions : List (String × Option Conduct)} {sink : Sink}
    (h : (Op.redirect functions).sink? = some sink) (st : Session) :
    Embedding.redirect functions st = st.install sink := by
  obtain ⟨r, hr, h⟩ := Option.bind_eq_some_iff.mp h
  obtain ⟨host, hhost, hsink⟩ := Option.bind_eq_some_iff.mp h
  cases hsink
  have hbuilt : (SinkRequest.host r).sink = .ok (.host host) := by
    rw [SinkRequest.sink, toOption_eq_some_iff.mp hhost]
    rfl
  simp only [Embedding.redirect, toOption_eq_some_iff.mp hr, Session.installRequest, hbuilt]

/-- An operation that comes to ask for a sink has it installed; a redirection says so
in its own way. -/
theorem Op.perform_of_sink? (react : React) (st : Session) {op : Op} {sink : Sink}
    (h : op.sink? = some sink) :
    op.perform react st = st.install sink
      ∨ (st.install sink).1 = .installed ∧ op.perform react st = (.done, (st.install sink).2) := by
  cases op with
  | install request =>
    have hrequest : request.sink = .ok sink := toOption_eq_some_iff.mp h
    left
    simp only [Op.perform, Session.installRequest, hrequest]
  | redirect functions =>
    simp only [Op.perform, Embedding.redirect_of_sink? h st]
    split
    · next after heq => exact .inr ⟨by rw [heq], by rw [heq]⟩
    · exact .inl rfl
  | _ => cases h

/-- A redirection that does not come to ask for a sink does not fit. -/
theorem Op.perform_redirect_of_none (react : React) (st : Session)
    {functions : List (String × Option Conduct)} (h : (Op.redirect functions).sink? = none) :
    ∃ fault, (Op.redirect functions).perform react st = (.failed (.argument fault), st) := by
  cases hr : Embedding.registration functions with
  | error fault =>
    refine ⟨fault, ?_⟩
    simp only [Op.perform, Embedding.redirect, hr]
  | ok r =>
    obtain ⟨host, hhost⟩ := Embedding.host_of_registration hr
    simp [sink?, hr, hhost, Except.toOption] at h

/-- A redirection is never refused for a function that is missing. -/
theorem Op.perform_redirect_ne (react : React) (st : Session)
    (functions : List (String × Option Conduct)) (why : Rejection) :
    ((Op.redirect functions).perform react st).1 ≠ .failed (.rejected why) := by
  cases hsink : (Op.redirect functions).sink? with
  | none =>
    obtain ⟨fault, hperform⟩ := Op.perform_redirect_of_none react st hsink
    rw [hperform]
    exact nofun
  | some sink =>
    have hinstall : (st.install sink).1 ≠ .failed (.rejected why) := by
      unfold Session.install
      split_ifs <;> exact nofun
    rcases Op.perform_of_sink? react st hsink with hperform | ⟨-, hperform⟩
    · rw [hperform]
      exact hinstall
    · rw [hperform]
      exact nofun

/-- An operation that does not come to ask for a sink does nothing in a process without
one. -/
theorem Op.perform_fresh (react : React) (env : Environment) {op : Op} (h : op.sink? = none) :
    (op.perform react { env }).2 = { env } := by
  cases op with
  | install request =>
    cases hrequest : request.sink with
    | error why => simp only [Op.perform, Session.installRequest, hrequest]
    | ok sink => simp [sink?, hrequest, Except.toOption] at h
  | redirect functions =>
    obtain ⟨fault, hperform⟩ := Op.perform_redirect_of_none react { env } h
    rw [hperform]
  | newTracer arguments =>
    simp only [Op.perform, Embedding.newTracer]
    split <;> rfl
  | method tracer name arguments => cases tracer <;> rfl
  | _ => rfl

namespace Session

theorem uninstalled_fresh (env : Environment) : Uninstalled { env } where
  sink := rfl
  console := rfl
  handles := rfl
  isInstalled _ := rfl
  attempt react op sink h := by
    obtain ⟨hreply, hsink⟩ : (install sink { env }).1 = .installed
        ∧ (install sink { env }).2.sink = some sink := install_of_none rfl sink
    rcases Op.perform_of_sink? react { env } h with hperform | ⟨-, hperform⟩
    · rw [hperform, hreply]
      exact ⟨nofun, hsink, console_of_some hsink⟩
    · rw [hperform]
      exact ⟨nofun, hsink, console_of_some hsink⟩
  tracer arguments names h := by
    simp only [Embedding.newTracer, h]
    rfl
  use _ _ _ := rfl

end Session

-- ============================================================== ends of the run

theorem Reaches.isSealed {P : Use → Prop} {m m' : Moment} (h : Reaches P m m') {c : Console}
    (hc : m.st.isSealed c = true) : m'.st.isSealed c = true := by
  obtain ⟨trace, hrun, -⟩ := h
  exact (hrun.isSealed_iff c).mpr (.inl hc)

/-- To end the run through a console seals it, whatever the host does meanwhile. -/
theorem Console.isSealed_terminate {react : React} (hr : Playable (fun _ => True) react)
    {st : Session} (hsink : st.sink.isSome = true) (c : Console) (code : Int32) :
    (c.terminate react code st).isSealed c = true := by
  cases hs : st.isSealed c with
  | true =>
    rw [c.terminate_sealed react hs]
    exact hs
  | false =>
    rw [c.terminate_closing react hs]
    let flushed := Deed.performAll react st [.ask none (.flush .stdout), .ask none (.flush .stderr)]
    have hflushed : Reaches (fun _ => True) ⟨[⟨none, [], _⟩], st⟩ ⟨[⟨none, [], []⟩], flushed⟩ :=
      reaches_deeds hr hsink _
    let marked := (flushed.markSealed c).note (.terminating code)
    have hmarked : marked.isSealed c = true := (isSealed_markSealed flushed c c).mpr (.inr rfl)
    have hsink' : marked.sink.isSome = true := hflushed.sink_isSome hsink
    have hended : Reaches (fun _ => True) ⟨[⟨none, [], _⟩], marked⟩
        ⟨[⟨none, [], []⟩], Deed.performAll react marked [.ask none (.terminate code)]⟩ :=
      reaches_deeds hr hsink' _
    exact hended.isSealed hmarked

theorem Step.perform_of_isSome {st : Session} (hsink : st.sink.isSome = true) (step : Step) :
    step.perform st = step.op.perform (Session.react st.waiting.length) st := by
  obtain ⟨sink, hsome⟩ := Option.isSome_iff_exists.mp hsink
  unfold Step.perform
  rw [hsome]
  rfl

namespace Session

theorem installed_of_sink {sink : Sink} {st : Session} (h : st.sink = some sink) :
    Installed sink st where
  sink := h
  console := console_of_some h
  isInstalled react := by
    simp only [Op.perform, h]
    rfl
  attempt react op sink' hop := by
    have hrefused := install_of_some h sink'
    rcases Op.perform_of_sink? react st hop with hperform | ⟨hreply, -⟩
    · rw [hperform, hrefused]
    · rw [hrefused] at hreply
      cases hreply
  tracer arguments names hnames := by
    obtain ⟨levels, fields⟩ := names
    have hmake : Embedding.newTracer arguments st = Embedding.makeTracer levels fields st := by
      simp only [Embedding.newTracer, hnames]
    rw [hmake]
    simp only [Embedding.makeTracer, console_of_some h]
    split
    · next why _ => exact .inl ⟨why, rfl, rfl⟩
    · exact .inr ⟨_, rfl, rfl, rfl⟩
  use react c op := by
    simp only [Op.perform, Session.needingSink, h]
    rfl
  terminate c code reactions later c' hfamily := by
    have hsink : st.sink.isSome = true := h ▸ rfl
    let step : Step := { op := .console c (.terminate code), reactions }
    have hstep : step.perform st
        = (.code code, c.terminate (Session.react st.waiting.length) code st) := by
      rw [Step.perform_of_isSome hsink]
      simp only [step, Op.perform, Session.needingSink, hsink]
      rfl
    have hsealed : (step.perform st).2.isSealed c' = true := by
      rw [isSealed_congr _ hfamily, hstep]
      exact c.isSealed_terminate (playable_react _) hsink code
    show (run st (step :: later)).2.isSealed c' = true
    rw [run_cons]
    split_ifs
    · exact hsealed
    · exact (run_reached ((step.reaches hsink).sink_isSome hsink) later).isSealed hsealed

/-- A program that never comes to ask for a sink leaves a process as it was; the first
sink that it asks for is its sink for good. -/
theorem run_fresh (env : Environment) (past : List Step) :
    match past.findSome? fun step => step.op.sink? with
    | none => (run { env } past).2 = { env }
    | some sink => (run { env } past).2.sink = some sink := by
  induction past with
  | nil => rfl
  | cons step rest ih =>
    rw [List.findSome?_cons]
    cases hsink : step.op.sink? with
    | none =>
      have hperformed : (step.perform { env }).2 = { env } := by
        have hop := Op.perform_fresh (Session.react 0) env hsink
        unfold Step.perform
        dsimp only [List.length_nil]
        rw [hop]
        exact hop
      have hrun : (run { env } (step :: rest)).2 = (run { env } rest).2 := by
        rw [run_cons, hperformed]
        rfl
      rw [hrun]
      exact ih
    | some sink =>
      have hstep : (step.perform { env }).2.sink = some sink := by
        have hop := ((uninstalled_fresh env).attempt (Session.react 0) step.op sink hsink).2.1
        unfold Step.perform
        dsimp only [List.length_nil]
        split_ifs <;> exact hop
      have hsome : (step.perform { env }).2.sink.isSome = true := by
        rw [hstep]
        rfl
      show (run { env } (step :: rest)).2.sink = some sink
      rw [run_cons]
      split_ifs
      · exact hstep
      · exact (run_reached hsome rest).sink.trans hstep

end Session

/-- Of all that a process may do, in any order, the first step that comes to ask for a
sink installs it and no other step installs anything. Until then the process is
uninstalled, from then on it is installed with that sink. The consoles that it hands out
are all clones of its one console, so to end the run through it seals them all, those
that are handed out later too; a program can only bring in others itself. And a
redirection is never refused for a function that is missing. -/
theorem single_installation (env : Environment) (past : List Step) :
    let st := (run { env } past).2
    (match past.findSome? fun step => step.op.sink? with
      | none => st.Uninstalled
      | some sink => st.Installed sink)
    ∧ (∀ c ∈ st.handles, c = .main ∨ BroughtIn past c)
    ∧ (∀ (code : Int32) (reactions : List (Callback × List Op)) (later : List Step),
        let steps : List Step := { op := .console .main (.terminate code), reactions } :: later
        let final := (run st steps).2
        st.sink.isSome = true →
          ∀ c ∈ final.handles, final.isSealed c = true ∨ BroughtIn (past ++ steps) c)
    ∧ ∀ (react : React) (functions : List (String × Option Conduct)) (why : Rejection),
        ((Op.redirect functions).perform react st).1 ≠ .failed (.rejected why) := by
  intro st
  have hgiven : Given (past.flatMap Step.ops) st := given_run env past
  refine ⟨?_, hgiven.handles, ?_, fun react => Op.perform_redirect_ne react st⟩
  · have hrun := Session.run_fresh env past
    cases hfirst : past.findSome? fun step => step.op.sink? with
    | none =>
      rw [hfirst] at hrun
      show st.Uninstalled
      rw [show st = { env } from hrun]
      exact Session.uninstalled_fresh env
    | some sink =>
      rw [hfirst] at hrun
      exact Session.installed_of_sink hrun
  · intro code reactions later steps final hsink c hc
    obtain ⟨sink, hsome⟩ := Option.isSome_iff_exists.mp hsink
    rcases hgiven.run_append.handles c hc with rfl | hbrought
    · left
      exact (Session.installed_of_sink hsome).terminate .main code reactions later .main rfl
    · exact .inr hbrought

/-- A process that was refused a tracer, was then given a sink in memory and came to its
end: the tracer was refused for want of a sink, and a host that comes now is refused
because there is one. -/
theorem single_installation_after_end :
    let env : Environment := { tempDir := "/tmp" }
    let unknown : Embedding.Arguments := { positional := [.list [.text "lexer"]] }
    let past : List Step := [{ op := .newTracer unknown }, { op := .install (.memory none) }]
    let steps : List Step := [{ op := .console .main (.terminate 3) }]
    let st := (run { env } past).2
    let final := (run { env } (past ++ steps)).2
    let functions := [("write", none), ("flush", none), ("exit", some (.returns none))]
    Embedding.newTracer unknown { env } = (.failed .notInstalled, { env })
      ∧ (run st steps).2.isSealed .main = true
      ∧ (Op.redirect functions).perform idle final
        = (.failed .alreadyInstalled, final.note .installRefused) := by
  intro env unknown past steps st final functions
  have hbefore : Session.Uninstalled { env } := (single_installation env []).1
  have hbehind : final.Installed (.memory none) := (single_installation env (past ++ steps)).1
  have hsealed := (single_installation env past).2.2.1 3 [] []
  refine ⟨hbefore.tracer unknown (["lexer"], []) rfl, ?_, ?_⟩
  · rcases hsealed rfl .main (by decide) with hmain | ⟨t, ht, -⟩
    · exact hmain
    · exact absurd ht (by simp [past, Step.ops])
  · exact hbehind.attempt idle (.redirect functions)
      (.host ⟨.notCallable, .notCallable, .returns none, none, none, none⟩) rfl

end ScanTrace
