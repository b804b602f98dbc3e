/-
What a host that waits for flushes has got when it is asked to exit. A host
may keep what it is given until it is told to flush, so whatever is handed
over for a stream has to be followed by a flush of that stream before the
exit (`FlushedAtExit`).

The end of a run flushes both streams first. What is still held for a stream
is given up afterwards, by the sink on its way to the exit, and no flush
comes behind that. So the host loses nothing exactly if nothing is held when
the run ends: always, if it takes bytes, and if it takes text only, unless
the bytes of the stream break off in a sequence at that point (`Host.leftHeld`).
All that is lost is the replacement character for that sequence.

What happens from the first flush to the exit is said event by event
(`events_terminate`); nothing has to be known of the run before but what it
leaves held.
-/
import ScanTrace.Proofs.Hosted.Transcript
import ScanTrace.Proofs.Reentry.Held

namespace ScanTrace

open Session

-- ============================================================ flushed events

/-- A text, bytes or a character that the host is given for a stream. -/
def Event.Outputs (s : Stream) : Event → Prop
  | .called (.write r _) | .called (.writeBytes r _) | .called (.putChar r _) => r = s
  | _ => False

/-- Whatever the host is given for a stream, a flush of the stream comes behind it and
before an exit. -/
def FlushedAtExit (s : Stream) (events : List Event) : Prop :=
  ∀ before e behind, events = before ++ e :: behind → e.Outputs s →
    ∃ mid rest code, behind = mid ++ .called (.flush s) :: rest ∧ .called (.exit code) ∈ rest

/-- Output behind the last flush of its stream is not flushed. -/
theorem not_flushedAtExit {s : Stream} {events behind : List Event} {e : Event}
    (he : e.Outputs s) (hbehind : .called (.flush s) ∉ behind) :
    ¬ FlushedAtExit s (events ++ e :: behind) := by
  intro h
  obtain ⟨mid, rest, code, rfl, -⟩ := h events e behind rfl he
  exact hbehind (List.mem_append_right _ List.mem_cons_self)

/-- With a flush and an exit behind it, in which nothing is given for the stream, any
list of events is flushed. -/
theorem flushedAtExit_append {s : Stream} {events mid rest : List Event} {code : Int32}
    (hexit : .called (.exit code) ∈ rest) (hmid : ∀ e ∈ mid, ¬ e.Outputs s)
    (hrest : ∀ e ∈ rest, ¬ e.Outputs s) :
    FlushedAtExit s (events ++ (mid ++ .called (.flush s) :: rest)) := by
  intro before e behind hsplit he
  have hquiet : ∀ e ∈ mid ++ .called (.flush s) :: rest, ¬ e.Outputs s := by
    rw [List.forall_mem_append, List.forall_mem_cons]
    exact ⟨hmid, not_false, hrest⟩
  obtain ⟨more, rfl, hmore⟩ | ⟨more, rfl, hmore⟩ := List.append_eq_append_iff.mp hsplit
  · -- the output stands behind the events, where there is none
    exact absurd he (hquiet e (hmore ▸ List.mem_append_right _ List.mem_cons_self))
  · cases more with
    | nil => exact absurd he (hquiet e (hmore ▸ List.mem_cons_self))
    | cons e' more =>
      obtain ⟨rfl, rfl⟩ := List.cons.inj hmore
      exact ⟨more ++ mid, rest, code, (List.append_assoc ..).symm, hexit⟩

-- ====================================================== the end of a run

variable {h : Host} {st : Session}

namespace Session

theorem sinkFlush_host (hsink : st.sink = some (.host h)) (s : Stream) :
    st.sinkFlush idle s = st.callHost idle h.flush (.flush s) := by
  unfold sinkFlush
  rw [hsink]

/-- What is handed over when the bytes held for a stream are given up. -/
def givenUp (s : Stream) (held : List UInt8) : List Event :=
  if held.isEmpty then [] else [.called (.write s "\uFFFD")]

/-- What the host gets on the way to the exit, by what is held for either stream. -/
def leaving (held : Stream → List UInt8) (code : Int32) : List Event :=
  givenUp .stdout (held .stdout)
    ++ (givenUp .stderr (held .stderr) ++ [Event.called (.exit code)])

/-- What the host gets when a run is ended. -/
def ending (held : Stream → List UInt8) (code : Int32) : List Event :=
  Event.called (.flush .stdout) :: Event.called (.flush .stderr) :: leaving held code

theorem events_release (hw : h.write ≠ .notCallable) {s : Stream}
    (hheld : Utf8.Begins (st.store.held.get s)) :
    (st.release idle h s).events = st.events ++ givenUp s (st.store.held.get s) := by
  rw [release_of_begins idle h hheld]
  unfold givenUp
  split_ifs
  · exact (List.append_nil _).symm
  · rw [events_callHost hw]
    rfl

/-- The sink gives up what is held for either stream and goes on to the exit. -/
theorem events_sinkTerminate (hw : h.write ≠ .notCallable) (he : h.exit ≠ .notCallable)
    (hsink : st.sink = some (.host h)) (hheld : ∀ s, Utf8.Begins (st.store.held.get s))
    (code : Int32) :
    (st.sinkTerminate idle code).events = st.events ++ leaving st.store.held.get code := by
  have hother : (st.release idle h .stdout).store.held.get .stderr
      = st.store.held.get .stderr := by
    rw [held_release, if_neg nofun]
  have hbegins : Utf8.Begins ((st.release idle h .stdout).store.held.get .stderr) := by
    rw [hother]
    exact hheld .stderr
  simp only [sinkTerminate, hsink]
  rw [events_callHost he]
  show ((st.release idle h .stdout).release idle h .stderr).events ++ _ = _
  rw [events_release hw hbegins, events_release hw (hheld .stdout), hother, List.append_assoc,
    List.append_assoc]
  rfl

end Session

/-- The end of a run, from the first flush to the exit. -/
theorem events_terminate (hw : h.write ≠ .notCallable) (hf : h.flush ≠ .notCallable)
    (he : h.exit ≠ .notCallable) (hsink : st.sink = some (.host h)) {c : Console}
    (hopen : st.isSealed c = false) (hheld : ∀ s, Utf8.Begins (st.store.held.get s))
    (code : Int32) :
    (c.terminate idle code st).events = st.events ++ ending st.store.held.get code := by
  let half := st.callHost idle h.flush (.flush .stdout)
  let flushed := half.callHost idle h.flush (.flush .stderr)
  have hhalf : half.sink = some (.host h) :=
    (Keeps.act st (.tell h.flush (.flush .stdout))).sink.trans hsink
  have hflushed : flushed.sink = some (.host h) :=
    (Keeps.act half (.tell h.flush (.flush .stderr))).sink.trans hhalf
  have hstore : flushed.store = st.store := (store_callHost ..).trans (store_callHost ..)
  have hends : c.terminate idle code st
      = ((flushed.markSealed c).note (.terminating code)).sinkTerminate idle code := by
    have hfirst : st.sinkFlush idle .stdout = half := sinkFlush_host hsink .stdout
    have hsecond : half.sinkFlush idle .stderr = flushed := sinkFlush_host hhalf .stderr
    unfold Console.terminate
    rw [if_neg (Bool.eq_false_iff.mp hopen), hfirst, hsecond]
  have hmarked : ((flushed.markSealed c).note (.terminating code)).sink = some (.host h) :=
    hflushed
  have hevents : flushed.events
      = st.events ++ [Event.called (.flush .stdout), Event.called (.flush .stderr)] := by
    rw [events_callHost hf, events_callHost hf, List.append_assoc]
    rfl
  rw [hends, events_sinkTerminate hw he hmarked (hstore ▸ hheld)]
  show flushed.events ++ leaving flushed.store.held.get code = _
  rw [hevents, hstore, List.append_assoc]
  rfl

-- ============================================================ what is held

theorem Act.held_perform_idle (st : Session) (a : Act) (s : Stream) :
    (a.perform idle st).store.held.get s = a.heldAfter s (st.store.held.get s) := by
  obtain ⟨ns, hperform⟩ := a.perform_idle st
  rw [hperform, ← Act.held_begin]
  rfl

theorem Act.held_performAll_idle_nil {acts : List Act} {s : Stream}
    (hacts : ∀ a ∈ acts, ∀ h r bytes, a ≠ .assemble h r bytes)
    (hnil : st.store.held.get s = []) :
    (Act.performAll idle st acts).store.held.get s = [] := by
  induction acts generalizing st with
  | nil => exact hnil
  | cons a acts ih =>
    refine ih (fun b hb => hacts b (List.mem_cons_of_mem _ hb)) ?_
    rw [Act.held_perform_idle, hnil]
    exact Act.heldAfter_nil (hacts a List.mem_cons_self) s

/-- Nothing is ever held for a host that takes bytes. -/
theorem tracks_nothing_held (hbytes : h.textOnly = false) (s : Stream) :
    Tracks (.host h) (fun (_ : Unit) _ => ()) (fun st _ => st.store.held.get s = []) where
  perform := by
    intro st _ hsink hnil op
    rw [SinkOp.perform_hostActs hsink]
    refine Act.held_performAll_idle_nil ?_ hnil
    rintro a ha h' r bytes rfl
    rw [(SinkOp.hostActs_of_assemble ha).1] at hbytes
    cases hbytes
  markSealed hnil _ := hnil
  note hnil _ := hnil

/-- What a run leaves held for a stream: of the bytes that came since the last text
on the stream, the sequence that they break off in. -/
def Host.leftHeld (h : Host) (ops : List ConsoleOp) (s : Stream) : List UInt8 :=
  if h.textOnly then Utf8.unfinished (Transcript.of s (ConsoleOp.script false ops)).opened else []

theorem Host.begins_leftHeld (h : Host) (ops : List ConsoleOp) (s : Stream) :
    Utf8.Begins (h.leftHeld ops s) := by
  unfold Host.leftHeld
  split_ifs
  · exact Utf8.begins_unfinished _
  · exact Utf8.begins_nil

theorem held_run (hc : h.Callable) (env : Environment) (c : Console) (ops : List ConsoleOp)
    (s : Stream) :
    (ConsoleOp.performAll idle c { env, sink := some (.host h) } ops).store.held.get s
      = h.leftHeld ops s := by
  let fresh : Session := { env, sink := some (.host h) }
  unfold Host.leftHeld
  split_ifs with ht
  · have hstart : Follows s (fresh.heard s) fresh {} :=
      Follows.start (show fresh.store.held = _ from rfl) s
    exact ((tracks_follows ht hc).run (c := c) rfl hstart ops).held
  · have hstart : fresh.store.held.get s = [] := by cases s <;> rfl
    exact (tracks_nothing_held (Bool.eq_false_iff.mpr ht) s).run (c := c) (a := ()) rfl hstart ops

-- =============================================================== the last flush

theorem givenUp_nil (s : Stream) : givenUp s [] = [] := rfl

theorem givenUp_of_ne_nil {held : List UInt8} (hheld : held ≠ []) (s : Stream) :
    givenUp s held = [.called (.write s "\uFFFD")] :=
  if_neg (mt List.isEmpty_iff.mp hheld)

/-- What is given up for a stream is a text on it. -/
theorem exists_of_mem_givenUp {r : Stream} {held : List UInt8} {e : Event}
    (he : e ∈ givenUp r held) : ∃ text, e = .called (.write r text) := by
  unfold givenUp at he
  split_ifs at he
  · cases he
  · exact ⟨_, List.mem_singleton.mp he⟩

theorem not_outputs_givenUp {r s : Stream} (hr : r ≠ s) (held : List UInt8) :
    ∀ e ∈ givenUp r held, ¬ e.Outputs s := by
  intro e he
  obtain ⟨text, rfl⟩ := exists_of_mem_givenUp he
  exact hr

theorem flush_notMem_givenUp (r s : Stream) (held : List UInt8) :
    .called (.flush s) ∉ givenUp r held := by
  intro he
  obtain ⟨text, heq⟩ := exists_of_mem_givenUp he
  cases heq

/-- What is given up for a stream comes behind its flush, so it is flushed only if it is
nothing. -/
theorem flushedAtExit_ending_iff (events : List Event) (held : Stream → List UInt8)
    (code : Int32) (s : Stream) :
    FlushedAtExit s (events ++ ending held code) ↔ held s = [] := by
  let exits : List Event := [.called (.exit code)]
  let errFlush : Event := .called (.flush .stderr)
  have hexit : ∀ more : List Event, .called (.exit code) ∈ more ++ exits :=
    fun _ => List.mem_append_right _ (List.mem_singleton_self _)
  constructor
  · intro hflushed
    by_contra hheld
    revert hflushed
    cases s with
    | stdout =>
      have hsplit : events ++ ending held code
          = (events ++ [.called (.flush .stdout), errFlush])
            ++ .called (.write .stdout "\uFFFD") :: (givenUp .stderr (held .stderr) ++ exits) := by
        unfold ending leaving
        rw [givenUp_of_ne_nil hheld, List.append_assoc]
        rfl
      rw [hsplit]
      refine not_flushedAtExit rfl ?_
      simp [exits, flush_notMem_givenUp]
    | stderr =>
      have hsplit : events ++ ending held code
          = (events ++ (.called (.flush .stdout) :: errFlush :: givenUp .stdout (held .stdout)))
            ++ .called (.write .stderr "\uFFFD") :: exits := by
        unfold ending leaving
        rw [givenUp_of_ne_nil hheld, List.append_assoc]
        rfl
      rw [hsplit]
      exact not_flushedAtExit rfl (by simp [exits])
  · intro hheld
    cases s with
    | stdout =>
      have hsplit : ending held code
          = [] ++ .called (.flush .stdout)
            :: (errFlush :: givenUp .stderr (held .stderr) ++ exits) := by
        unfold ending leaving
        rw [hheld, givenUp_nil]
        rfl
      have hquiet : ∀ e ∈ errFlush :: givenUp .stderr (held .stderr) ++ exits,
          ¬ e.Outputs .stdout := by
        rw [List.forall_mem_append, List.forall_mem_cons, List.forall_mem_singleton]
        exact ⟨⟨not_false, not_outputs_givenUp (by decide) _⟩, not_false⟩
      rw [hsplit]
      exact flushedAtExit_append (hexit _) (List.forall_mem_nil _) hquiet
    | stderr =>
      have hsplit : ending held code
          = [.called (.flush .stdout)] ++ errFlush
            :: (givenUp .stdout (held .stdout) ++ exits) := by
        unfold ending leaving
        rw [hheld, givenUp_nil]
        rfl
      have hfirst : ∀ e ∈ [Event.called (.flush .stdout)], ¬ e.Outputs .stderr :=
        List.forall_mem_singleton.mpr not_false
      have hquiet : ∀ e ∈ givenUp .stdout (held .stdout) ++ exits, ¬ e.Outputs .stderr := by
        rw [List.forall_mem_append, List.forall_mem_singleton]
        exact ⟨not_outputs_givenUp (by decide) _, not_false⟩
      rw [hsplit]
      exact flushedAtExit_append (hexit _) hfirst hquiet

/-- When the run of a host that does not call back is ended, the host is told to flush
both streams and after that gets a replacement character for each stream that
still has bytes held, and the exit. So what it was given on a stream is flushed before the
exit exactly if nothing was held for the stream: always, if the host takes
bytes, and else if the bytes since the last text on the stream do not break
off in a sequence. -/
theorem output_flushed_at_exit_iff {h : Host} (hc : h.Callable) (hf : h.flush ≠ .notCallable)
    (he : h.exit ≠ .notCallable) (env : Environment) (c : Console) {ops : List ConsoleOp}
    (hops : ∀ o ∈ ops, o.ends = false) (code : Int32) :
    let fresh : Session := { env, sink := some (.host h) }
    let before := ConsoleOp.performAll idle c fresh ops
    let after := ConsoleOp.performAll idle c fresh (ops ++ [.terminate code])
    after.events = before.events ++ ending (h.leftHeld ops) code
      ∧ ∀ s, FlushedAtExit s after.events ↔ h.leftHeld ops s = [] := by
  intro fresh before after
  have hkeeps : Keeps fresh before := ConsoleOp.keeps_performAll hops fresh
  have hheld : before.store.held.get = h.leftHeld ops := funext (held_run hc env c ops)
  have hbegins : ∀ s, Utf8.Begins (before.store.held.get s) := by
    rw [hheld]
    exact h.begins_leftHeld ops
  have hafter : after = c.terminate idle code before := by
    show ConsoleOp.performAll idle c fresh (ops ++ [.terminate code]) = _
    unfold ConsoleOp.performAll
    rw [List.foldl_append]
    rfl
  have hevents : after.events = _ := (congrArg Session.events hafter).trans
    (events_terminate hc.1 hf he hkeeps.sink (hkeeps.isSealed c) hbegins code)
  rw [hheld] at hevents
  refine ⟨hevents, ?_⟩
  rw [hevents]
  exact flushedAtExit_ending_iff before.events (h.leftHeld ops) code

/-- A sign in two pieces, across a flush and a line for the other stream, is over when
the run ends; all of it is flushed. -/
theorem output_flushed_at_exit_split_sign :
    let h : Host := { write := .returns none, flush := .returns none, exit := .returns none }
    let ops : List ConsoleOp :=
      [.writeBytes .stdout [0xE2, 0x82], .flush, .writeBytes .stdout [0xAC], .eprint "x"]
    let after := ConsoleOp.performAll idle .main
      { env := { tempDir := "/tmp" }, sink := some (.host h) } (ops ++ [.terminate 0])
    FlushedAtExit .stdout after.events ∧ FlushedAtExit .stderr after.events := by
  intro h ops after
  have hflushed := (output_flushed_at_exit_iff (h := h) ⟨by decide, by decide⟩ (by decide)
    (by decide) { tempDir := "/tmp" } .main (show ∀ o ∈ ops, o.ends = false by decide) 0).2
  refine ⟨(hflushed .stdout).mpr ?_, (hflushed .stderr).mpr ?_⟩
  · show Utf8.unfinished [0xE2, 0x82, 0xAC] = []
    rw [← Utf8.drain_snd]
    decide
  · exact Utf8.unfinished_nil

/-- One byte of a sign, and the run is ended: what it is worth comes behind the flushes,
and no flush comes behind that. -/
theorem open_sign_unflushed_at_exit :
    let h : Host := { write := .returns none, flush := .returns none, exit := .returns none }
    let after := ConsoleOp.performAll idle .main
      { env := { tempDir := "/tmp" }, sink := some (.host h) }
      [.writeBytes .stdout [0xD0], .terminate 0]
    ¬ FlushedAtExit .stdout after.events := by
  intro h after
  have hevents : after.events
      = [.called (.flush .stdout), .called (.flush .stderr)]
        ++ .called (.write .stdout (String.ofList (Utf8.lossy [0xD0])))
          :: [.called (.exit 0)] := rfl
  rw [hevents]
  exact not_flushedAtExit rfl (by simp)

end ScanTrace
