/-
Where the consoles of a process come from. A process hands out its console
in two ways: as the console itself, and inside the tracers that it makes.
Both times it is the console that was installed, so every console that can
be got hold of is a clone of that one, unless the program made a tracer of
its own on some other console, or a host function did.

The invariant is about what could bring in another console: the tracers that
there are, and the steps that wait for host functions to take them
(`Given`). Output has no part in either (`Given.output`), so what reactions
keep, operations keep; and a reaction is steps again, down to the depth to
which calls can nest.
-/
import ScanTrace.Proofs.Reentry.Machine

namespace ScanTrace

open Session

/-- The consoles that a process has handed out: its own, once it is installed, and those
of its tracers. -/
def Session.handles (st : Session) : List Console :=
  st.console.toOption.toList ++ st.tracers.map Tracer.console

/-- What a step of a program may do: its operation, and those that wait for the host. -/
def Step.ops (step : Step) : List Op := step.op :: step.reactions.flatMap Prod.snd

/-- Every tracer is on the console of the process, or was made by one of the given
operations, and nothing waits but given operations. -/
structure Given (ops : List Op) (st : Session) : Prop where
  tracers : ∀ t ∈ st.tracers, t.console = .main ∨ .useTracer t ∈ ops
  waiting : ∀ e ∈ st.waiting, ∀ op ∈ e.2, op ∈ ops

/-- A reaction that keeps to the given operations. -/
def KeepsGiven (ops : List Op) (react : React) : Prop :=
  ∀ (callback : Callback) (st : Session), Given ops st → Given ops (react callback st)

-- ================================================================ operations

namespace Given

variable {ops : List Op} {react : React} {st st' : Session}

/-- Sessions with the same tracers and the same steps that wait are alike in this. -/
theorem same (h : Given ops st) (htracers : st'.tracers = st.tracers)
    (hwaiting : st'.waiting = st.waiting) : Given ops st' where
  tracers := by
    rw [htracers]
    exact h.tracers
  waiting := by
    rw [hwaiting]
    exact h.waiting

/-- Output makes no tracer. -/
theorem output (h : Given ops st) (houtput : SameButOutput st st') : Given ops st' := by
  obtain ⟨_, _, _, _, rfl⟩ := houtput
  exact h.same rfl rfl

theorem act (hr : KeepsGiven ops react) (h : Given ops st) (a : Act) :
    Given ops (a.perform react st) := by
  have hbegin := h.output (SameButOutput.begin st a)
  rw [Act.perform_begin]
  generalize a.begin st = half at hbegin ⊢
  rcases half with ⟨st', _ | ⟨conduct, call⟩⟩
  · exact hbegin
  · exact (hr call.callback st' hbegin).output (SameButOutput.endCall ..)

theorem request (hr : KeepsGiven ops react) (h : Given ops st) (op : SinkOp) :
    Given ops (op.perform react st).2 := by
  rw [SinkOp.perform_acts]
  generalize op.acts st.sink = as
  induction as generalizing st with
  | nil => exact h
  | cons a as ih => exact ih (h.act hr a)

theorem lasts (hr : KeepsGiven ops react) : Lasts react (Given ops) where
  request h op := h.request hr op
  markSealed h _ := h.same rfl rfl
  note h _ := h.same rfl rfl
  format h _ := h.same rfl rfl

/-- An operation keeps to what its reactions keep to. -/
theorem use (hr : KeepsGiven ops react) (h : Given ops st) (u : Use) :
    Given ops (u.perform react st).2 := (lasts hr).use h u

-- ==================================================================== steps

theorem addTracer (h : Given ops st) {t : Tracer} (ht : t.console = .main ∨ .useTracer t ∈ ops) :
    Given ops { st with tracers := st.tracers ++ [t] } where
  tracers t' ht' := by
    rcases List.mem_append.mp ht' with ht' | ht'
    · exact h.tracers t' ht'
    · rw [List.mem_singleton.mp ht']
      exact ht
  waiting := h.waiting

theorem openTracer (h : Given ops st) : Given ops st.openTracer := by
  unfold Session.openTracer
  split
  · exact h
  · exact h.addTracer (.inl rfl)
  · dsimp only
    split
    · exact h.same rfl rfl
    · have hnoted : ∀ ns, Given ops (st.noteAll ns) := fun _ => h.same rfl rfl
      exact ((hnoted _).addTracer (.inl rfl)).same rfl rfl

theorem installRequest (h : Given ops st) (request : SinkRequest) :
    Given ops (st.installRequest request).2 := by
  unfold Session.installRequest
  split
  · exact h
  · next sink _ =>
    unfold Session.install
    split_ifs
    · exact h.same rfl rfl
    · have hchosen : Given ops { st.note .installed with sink := some sink } := h.same rfl rfl
      exact hchosen.openTracer

theorem redirect (h : Given ops st) (functions : List (String × Option Conduct)) :
    Given ops (Embedding.redirect functions st).2 := by
  unfold Embedding.redirect
  split
  · exact h
  · exact h.installRequest _

theorem newTracer (h : Given ops st) (arguments : Embedding.Arguments) :
    Given ops (Embedding.newTracer arguments st).2 := by
  unfold Embedding.newTracer
  split
  · exact h
  · unfold Embedding.makeTracer Session.console
    split_ifs
    · dsimp only
      have hnoted : ∀ ns, Given ops (st.noteAll ns) := fun _ => h.same rfl rfl
      split
      · exact hnoted _
      · exact (hnoted _).addTracer (.inl rfl)
    · exact h

theorem method (hr : KeepsGiven ops react) (h : Given ops st) (tracer : Option Nat)
    (name : String) (arguments : Embedding.Arguments) :
    Given ops (Embedding.callMethod react tracer name arguments st).2 := by
  unfold Embedding.callMethod
  split
  · exact h
  · next t _ =>
    split
    · exact h
    · split
      · exact h
      · next r _ =>
        cases r with
        | isEnabled level =>
          unfold Embedding.Request.perform
          dsimp only
          split <;> exact h
        | emit level message | emitUnit level raw =>
          unfold Embedding.Request.perform
          dsimp only
          split
          · exact h
          · exact h.use hr (.trace t _)
        | trace call => exact h.use hr (.trace t call)
        | tagFound tag path => exact h.use hr (.trace t _)

theorem needingSink (h : Given ops st) {act : Session → Reply × Session}
    (hact : Given ops (act st).2) : Given ops (st.needingSink act).2 := by
  unfold Session.needingSink
  split_ifs
  · exact hact
  · exact h

theorem needingTracer (h : Given ops st) {act : Tracer → Session → Reply × Session}
    (hact : ∀ t, Given ops (act t st).2) : Given ops (st.needingTracer act).2 := by
  refine h.needingSink ?_
  split
  · exact h
  · exact hact _

/-- A given operation keeps to the given operations. -/
theorem op (hr : KeepsGiven ops react) (h : Given ops st) {op : Op} (hop : op ∈ ops) :
    Given ops (op.perform react st).2 := by
  cases op with
  | isInstalled | version => exact h
  | install request => exact h.installRequest request
  | redirect functions =>
    have hredirect := h.redirect functions
    simp only [Op.perform]
    split
    · next he => rwa [he] at hredirect
    · exact hredirect
  | newTracer arguments => exact h.newTracer arguments
  | method tracer name arguments => exact h.method hr tracer name arguments
  | sink op => exact h.needingSink (h.use hr (.sink op))
  | console c op => exact h.needingSink (h.use hr (.console c op))
  | useTracer t => exact h.needingSink (h.addTracer (.inr hop))
  | tracerState | isEnabled _ | lineBreak => exact h.needingTracer fun _ => h
  | trace call => exact h.needingTracer fun t => h.use hr (.trace t call)
  | tagFound tag path => exact h.needingTracer fun t => h.use hr (.trace t _)
  | take s =>
    refine h.needingSink ?_
    unfold Session.take
    split
    · exact h.same rfl rfl
    · exact h

end Given

-- ==================================================================== runs

/-- The steps that wait for a host are given ones, so what it does with them keeps to the
given operations, to any depth. -/
theorem keepsGiven_react (ops : List Op) (n : Nat) : KeepsGiven ops (Session.react n) := by
  induction n with
  | zero => exact fun _ _ h => h
  | succ n ih =>
    intro callback st h
    unfold Session.react Session.takeReaction
    cases hfind : st.waiting.find? fun e => e.1 == callback with
    | none => exact h
    | some e =>
      dsimp only
      have hsteps : ∀ op ∈ e.2, op ∈ ops := h.waiting e (List.mem_of_find?_eq_some hfind)
      have htaken : Given ops
          { st with waiting := st.waiting.eraseP fun e => e.1 == callback } :=
        ⟨h.tracers, fun e' he' => h.waiting e' (List.mem_of_mem_eraseP he')⟩
      generalize { st with waiting := st.waiting.eraseP fun e => e.1 == callback } = st'
        at htaken
      generalize e.2 = steps at hsteps
      -- the steps of the list, each followed by the record of its answer
      induction steps generalizing st' with
      | nil => exact htaken
      | cons op steps ihs =>
        obtain ⟨hop, hrest⟩ := List.forall_mem_cons.mp hsteps
        have hanswered : Given ops ((op.perform (Session.react n) st').2.record
            (.reacted callback (op.perform (Session.react n) st').1)) :=
          (htaken.op ih hop).same rfl rfl
        exact ihs _ hanswered hrest

theorem Given.step {ops : List Op} {st : Session} (h : Given ops st) {step : Step}
    (hstep : ∀ op ∈ step.ops, op ∈ ops) : Given ops (step.perform st).2 := by
  have hperformed := h.op (keepsGiven_react ops st.waiting.length)
    (hstep step.op List.mem_cons_self)
  unfold Step.perform
  dsimp only
  split_ifs
  · refine ⟨hperformed.tracers, ?_⟩
    intro e he op hop
    exact hstep op (List.mem_cons_of_mem _ (List.mem_flatMap.mpr ⟨e, he, hop⟩))
  · exact hperformed

/-- A program goes on with its other steps unless the first one ends the process. -/
theorem run_cons (st : Session) (step : Step) (rest : List Step) :
    (run st (step :: rest)).2
      = if (step.perform st).2.ended then (step.perform st).2
        else (run (step.perform st).2 rest).2 := by
  rw [run]
  dsimp only
  split_ifs <;> rfl

theorem Given.run {ops : List Op} {st : Session} (h : Given ops st) {steps : List Step}
    (hsteps : ∀ op ∈ steps.flatMap Step.ops, op ∈ ops) : Given ops (run st steps).2 := by
  induction steps generalizing st with
  | nil => exact h
  | cons step rest ih =>
    rw [List.flatMap_cons, List.forall_mem_append] at hsteps
    have hstep := h.step hsteps.1
    rw [run_cons]
    split_ifs
    · exact hstep
    · exact ih hstep hsteps.2

theorem Given.mono {ops ops' : List Op} {st : Session} (h : Given ops st)
    (hsub : ∀ op ∈ ops, op ∈ ops') : Given ops' st where
  tracers t ht := (h.tracers t ht).imp_right (hsub _)
  waiting e he op hop := hsub op (h.waiting e he op hop)

/-- Steps that come after others keep to the operations of both. -/
theorem Given.run_append {past later : List Step} {st : Session}
    (h : Given (past.flatMap Step.ops) st) :
    Given ((past ++ later).flatMap Step.ops) (ScanTrace.run st later).2 := by
  rw [List.flatMap_append]
  have hboth : Given (past.flatMap Step.ops ++ later.flatMap Step.ops) st :=
    h.mono fun _ hop => List.mem_append_left _ hop
  exact hboth.run fun _ hop => List.mem_append_right _ hop

theorem given_run (env : Environment) (past : List Step) :
    Given (past.flatMap Step.ops) (run { env } past).2 := by
  have hfresh : Given (([] : List Step).flatMap Step.ops) { env } :=
    ⟨fun _ ht => (List.not_mem_nil ht).elim, fun _ he => (List.not_mem_nil he).elim⟩
  exact hfresh.run_append

/-- A console that a program brings in itself, in a tracer of its own making. -/
def BroughtIn (steps : List Step) (c : Console) : Prop :=
  ∃ t, .useTracer t ∈ steps.flatMap Step.ops ∧ t.console = c

/-- Every console that a process hands out is its own, or one that was brought in. -/
theorem Given.handles {steps : List Step} {st : Session}
    (h : Given (steps.flatMap Step.ops) st) :
    ∀ c ∈ st.handles, c = .main ∨ BroughtIn steps c := by
  intro c hc
  rcases List.mem_append.mp hc with hc | hc
  · left
    unfold Session.console at hc
    split_ifs at hc
    · exact List.mem_singleton.mp hc
    · cases hc
  · obtain ⟨t, ht, rfl⟩ := List.mem_map.mp hc
    exact (h.tracers t ht).imp id fun hop => ⟨t, hop, rfl⟩

end ScanTrace
