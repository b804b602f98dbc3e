/-
What a host that takes text only is kept waiting for. Whatever is written to
it, and whatever its functions do while they are called, the bytes held for
a stream are none or the first one to three bytes of a character
(`Utf8.BreaksOff`), so a release is worth one replacement character.

Two things are kept by every step. The bytes that are held begin a sequence,
because an act leaves nothing, what was there, or what a drained list ends
in. And where bytes can be passed on, none are held, because the act that
holds bytes back is never due there (`Holding`).

Nothing that the sink hands over on its own account is empty. An act hands
over a text only if there is one, and the rest are texts and characters that
were to be written as such.
-/
import ScanTrace.Proofs.Reentry.Remainder
import ScanTrace.Proofs.Utf8.Beginnings

namespace ScanTrace

open Session

-- ================================================================= holding

theorem Act.begins_heldAfter {held : List UInt8} (h : Utf8.Begins held) (a : Act) (s : Stream) :
    Utf8.Begins (a.heldAfter s held) := by
  cases a with
  | release h' r =>
    unfold Act.heldAfter
    dsimp only
    split_ifs
    · exact Utf8.begins_nil
    · exact h
  | assemble h' r bytes =>
    unfold Act.heldAfter
    dsimp only
    split_ifs
    · rw [Utf8.drain_snd]
      exact Utf8.begins_unfinished _
    · exact h
  | format _ | tell _ _ | collect _ _ | emitDirect _ _ | countFlush | flushDirect _
  | keepExitCode _ | note _ => exact h

/-- Only bytes that are put together come to be held. -/
theorem Act.heldAfter_nil {a : Act} (ha : ∀ h s bytes, a ≠ .assemble h s bytes) (s : Stream) :
    a.heldAfter s [] = [] := by
  cases a with
  | release h r => exact ite_self []
  | assemble h r bytes => exact absurd rfl (ha h r bytes)
  | format _ | tell _ _ | collect _ _ | emitDirect _ _ | countFlush | flushDirect _
  | keepExitCode _ | note _ => rfl

/-- What is held for a host. -/
structure Holding (h : Host) (st : Session) : Prop where
  sink : st.sink = some (.host h)
  begins : ∀ s, Utf8.Begins (st.store.held.get s)
  nothing : h.textOnly = false → ∀ s, st.store.held.get s = []

namespace Holding

variable {h : Host} {past : List Label} {l : Label} {m m' : Moment}

theorem start {st : Session} (hsink : st.sink = some (.host h))
    (hheld : st.store.held = ⟨[], []⟩) : Holding h st := by
  have hnil : ∀ s, st.store.held.get s = [] := by
    intro s
    rw [hheld]
    cases s <;> rfl
  refine ⟨hsink, ?_, fun _ => hnil⟩
  intro s
  rw [hnil s]
  exact Utf8.begins_nil

theorem step (hh : Holding h m.st) (hstack : Stacked past m) (hmove : Move l m m') :
    Holding h m'.st where
  sink := hmove.sink.trans hh.sink
  begins := by
    intro s
    rcases hmove.held s with hsame | ⟨a, as, ds, fs, -, hact⟩
    · rw [hsame]
      exact hh.begins s
    · rw [hact]
      exact a.begins_heldAfter (hh.begins s) s
  nothing := by
    intro ht s
    rcases hmove.held s with hsame | ⟨a, as, ds, fs, hframes, hact⟩
    · rw [hsame]
      exact hh.nothing ht s
    · rw [hact, hh.nothing ht s]
      refine Act.heldAfter_nil ?_ s
      rintro h' r bytes rfl
      obtain ⟨op, -, hmem⟩ := hstack.mem_acts hframes List.mem_cons_self
      rw [hh.sink] at hmem
      rw [(SinkOp.hostActs_of_assemble hmem).1] at ht
      cases ht

end Holding

theorem Run.holding {h : Host} {st : Session} (hsink : st.sink = some (.host h))
    (hheld : st.store.held = ⟨[], []⟩) {trace : List Label} {m : Moment}
    (hrun : Run ⟨[], st⟩ trace m) : Holding h m.st := by
  have hkeep := hrun.invariant (I := fun past m => Stacked past m ∧ Holding h m.st)
    (fun hpast hmove => ⟨hpast.1.step hmove, hpast.2.step hpast.1 hmove⟩)
    ⟨.nil st, .start hsink hheld⟩
  exact hkeep.2

-- ================================================================ handed over

/-- What a step shows the host beside the answers of its own operations. -/
theorem Move.called {l : Label} {m m' : Moment} (h : Move l m m') {new : List Event}
    (hnew : m'.st.events = m.st.events ++ new) {call : Call} (hcall : .called call ∈ new) :
    (∃ conduct as ds fs, m.frames = ⟨none, .tell conduct call :: as, ds⟩ :: fs)
      ∨ ∃ s text, call = .write s text ∧ text ≠ "" := by
  have hsilent : m'.st.events ≠ m.st.events := by
    intro hsame
    rw [hsame] at hnew
    rw [List.self_eq_append_right.mp hnew] at hcall
    cases hcall
  cases h with
  | aside _ ha =>
    obtain ⟨more, hevents, hmore⟩ := ha.events
    rw [List.append_cancel_left (hnew.symm.trans hevents)] at hcall
    obtain ⟨callback, reply, heq⟩ := hmore _ hcall
    cases heq
  | @act a as ds fs st =>
    rcases a.events_begin st with hsame | ⟨call', hevents, hcause⟩
    · exact absurd hsame hsilent
    · rw [List.append_cancel_left (hnew.symm.trans hevents)] at hcall
      cases List.mem_singleton.mp hcall
      refine hcause.imp_left ?_
      rintro ⟨conduct, rfl⟩
      exact ⟨conduct, as, ds, fs, rfl⟩
  | @back conduct call' as ds fs st =>
    refine absurd ?_ hsilent
    show (st.endCall conduct call').events = st.events
    unfold Session.endCall
    split <;> rfl
  | start _ _ | ask _ | drop _ | refuse _ | close _ | mark | form | finish =>
    exact absurd rfl hsilent

-- ================================================================== release

/-- Bytes that begin a sequence are worth one replacement character. -/
theorem Session.release_of_begins (react : React) (h : Host) {s : Stream} {st : Session}
    (hbegins : Utf8.Begins (st.store.held.get s)) :
    st.release react h s = if (st.store.held.get s).isEmpty then st
      else (st.hold s []).callHost react h.write (.write s "\uFFFD") := by
  unfold Session.release hostWrite
  dsimp only
  rw [Utf8.lossy_of_begins hbegins]
  split_ifs
  · rfl
  · rfl

theorem held_terminate {h : Host} {st : Session} (hsink : st.sink = some (.host h)) (code : Int32)
    (s : Stream) : ((SinkOp.terminate code).perform idle st).2.store.held.get s = [] := by
  show (sinkTerminate idle code st).store.held.get s = []
  unfold Session.sinkTerminate
  rw [hsink]
  dsimp only
  rw [store_callHost]
  show ((st.release idle h .stdout).release idle h .stderr).store.held.get s = []
  rw [held_release, held_release]
  cases s <;> rfl

-- ==================================================================== runs

/-- At every moment of a run, the bytes held for a stream are none or the first one
to three of a character, and a release makes one replacement character of them.
None are held for a host that takes bytes. The one who tells the host of an
empty text is the one who was to write it. And the end of the run holds nothing
back. -/
theorem held_bytes_break_off {h : Host} {st : Session} (hsink : st.sink = some (.host h))
    (hheld : st.store.held = ⟨[], []⟩) {trace : List Label} {m : Moment}
    (hrun : Run ⟨[], st⟩ trace m) :
    (∀ s, m.st.store.held.get s = [] ∨ Utf8.BreaksOff (m.st.store.held.get s))
      ∧ (∀ react s, m.st.release react h s = if (m.st.store.held.get s).isEmpty then m.st
          else (m.st.hold s []).callHost react h.write (.write s "\uFFFD"))
      ∧ (h.writeBytes.isSome = true → ∀ s, m.st.store.held.get s = [])
      ∧ (∀ l m' new s, Move l m m' → m'.st.events = m.st.events ++ new →
          .called (.write s "") ∈ new → .asks (.write s "") ∈ trace
            ∧ ∃ as ds fs, m.frames = ⟨none, .tell h.write (.write s "") :: as, ds⟩ :: fs)
      ∧ ∀ code s, ((SinkOp.terminate code).perform idle m.st).2.store.held.get s = [] := by
  have hholding := hrun.holding hsink hheld
  refine ⟨fun s => (hholding.begins s).eq_nil_or_breaksOff, ?_, ?_, ?_, ?_⟩
  · exact fun react s => release_of_begins react h (hholding.begins s)
  · intro hbytes
    refine hholding.nothing ?_
    unfold Host.textOnly
    rw [← Option.not_isSome, hbytes]
    rfl
  · intro l m' new s hmove hnew hcall
    rcases hmove.called hnew hcall with ⟨conduct, as, ds, fs, hframes⟩ | ⟨r, text, heq, htext⟩
    · obtain ⟨op, hop, hmem⟩ := hrun.stacked.mem_acts hframes List.mem_cons_self
      rw [hholding.sink] at hmem
      obtain ⟨rfl, rfl⟩ := SinkOp.write_of_tell_empty hmem
      exact ⟨hop, as, ds, fs, hframes⟩
    · cases heq
      exact absurd rfl htext
  · exact held_terminate hholding.sink

/-- While a text waits for the release before it, the host begins another character. -/
theorem held_bytes_break_off_in_release :
    let h : Host := { write := .returns none, flush := .returns none, exit := .returns none }
    let st : Session := { env := { tempDir := "/tmp" }, sink := some (.host h) }
    ∃ trace m, Run ⟨[], st⟩ trace m ∧ m.frames.length = 2
      ∧ m.st.store.held.get .stdout = [0xE2, 0x82] ∧ Utf8.BreaksOff [0xE2, 0x82]
      ∧ (∀ react, m.st.release react h .stdout
          = (m.st.hold .stdout []).callHost react h.write (.write .stdout "\uFFFD"))
      ∧ ∀ code s, ((SinkOp.terminate code).perform idle m.st).2.store.held.get s = [] := by
  intro h st
  have hrun : ∃ trace m, Run ⟨[], st⟩ trace m ∧ m.frames.length = 2
      ∧ m.st.store.held.get .stdout = [0xE2, 0x82] := by
    refine ⟨_, _, .cons (.start (.sink (.writeBytes .stdout [0xD0])) trivial) (.cons (.ask nofun)
      (.cons .act (.cons .finish (.cons (.start (.sink (.write .stdout "x")) trivial)
        (.cons (.ask nofun) (.cons .act
          (.cons (.start (.sink (.writeBytes .stdout [0xE2, 0x82])) rfl)
            (.cons (.ask nofun) (.cons .act (.nil _)))))))))), rfl, rfl⟩
  obtain ⟨trace, m, hrun, hframes, hheld⟩ := hrun
  obtain ⟨hbreaks, hrelease, -, -, hend⟩ := held_bytes_break_off rfl rfl hrun
  refine ⟨trace, m, hrun, hframes, hheld, ?_, ?_, hend⟩
  · have hstdout := hbreaks .stdout
    rw [hheld] at hstdout
    exact hstdout.resolve_left (List.cons_ne_nil _ _)
  · intro react
    rw [hrelease react .stdout, hheld]
    rfl

end ScanTrace
