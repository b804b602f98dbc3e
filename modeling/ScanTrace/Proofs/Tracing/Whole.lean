/-
What a host is told of a trace call. A call at a level that is traced is one
piece of output on standard output and one flush behind it, and the piece is
the whole of it (`Tracer.carried`): whoever reads the trace as it grows never
sees half a message, and never waits for one.

Before a text comes what a host that takes text only is still waiting for: if
bytes are held, a replacement character in a call of its own. A byte is not
held up by that, it goes on with what is held, and such a host is told of it
only if it completes something.

The lemmas about a single output are for either stream and any host that
holds what it may hold; the headline is about any moment of any run, in the
middle of a host function too. Flushes are counted by counting calls: of what
a call asks for the last is a flush, and the first is none.
-/
import ScanTrace.Proofs.Hosted.Flushes
import ScanTrace.Proofs.Hosted.LastFlush
import ScanTrace.Proofs.Installation.Once
import ScanTrace.Proofs.Tracing.Levels

namespace ScanTrace

open Session

-- ================================================================ one output

namespace Host

/-- What comes before a text for which bytes are held. -/
def toldBefore (h : Host) (s : Stream) (held : List UInt8) : List Event :=
  if h.textOnly then givenUp s held else []

/-- What a host is told of bytes: the bytes, or, if it takes text only, the text that they
complete behind those that are held. -/
def toldOfBytes (h : Host) (s : Stream) (held bytes : List UInt8) : List Event :=
  if h.textOnly then
    let completed := Utf8.settled (held ++ bytes)
    if completed.isEmpty then [] else [.called (.write s (String.ofList completed))]
  else [.called (.writeBytes s bytes)]

/-- What a host is told of a character. -/
def toldOfChar (h : Host) (s : Stream) (c : Char) : Event :=
  .called (if h.putChar.isSome then .putChar s c else .write s c.toString)

end Host

section Output

variable {h : Host} {st : Session} {s : Stream}

theorem Session.events_settle (hw : h.write ≠ .notCallable)
    (hheld : Utf8.Begins (st.store.held.get s)) :
    (st.settle idle h s).events = st.events ++ h.toldBefore s (st.store.held.get s) := by
  unfold settle Host.toldBefore
  split_ifs
  · exact events_release hw hheld
  · exact (List.append_nil _).symm

theorem Session.events_sinkWrite (hc : h.Callable) (hsink : st.sink = some (.host h))
    (hheld : Utf8.Begins (st.store.held.get s)) (text : String) :
    (st.sinkWrite idle s text).events
      = st.events ++ (h.toldBefore s (st.store.held.get s) ++ [.called (.write s text)]) := by
  simp only [sinkWrite, hsink]
  rw [hostWrite, events_callHost hc.1]
  show (st.settle idle h s).events ++ _ = _
  rw [events_settle hc.1 hheld, List.append_assoc]

theorem Session.events_sinkPutChar (hc : h.Callable) (hsink : st.sink = some (.host h))
    (hheld : Utf8.Begins (st.store.held.get s)) (c : Char) :
    (st.sinkPutChar idle s c).events
      = st.events ++ (h.toldBefore s (st.store.held.get s) ++ [h.toldOfChar s c]) := by
  have hsettled := events_settle (h := h) hc.1 hheld
  simp only [sinkPutChar, hsink]
  cases hput : h.putChar with
  | none =>
    show ((st.settle idle h s).hostWrite idle h s c.toString).events = _
    rw [hostWrite, events_callHost hc.1, hsettled, List.append_assoc, Host.toldOfChar, hput]
    rfl
  | some conduct =>
    have hconduct : conduct ≠ .notCallable := fun heq => hc.2 (heq ▸ hput)
    show ((st.settle idle h s).callHost idle conduct (.putChar s c)).events = _
    rw [events_callHost hconduct, hsettled, List.append_assoc, Host.toldOfChar, hput]
    rfl

theorem Session.events_sinkWriteBytes (hc : h.Callable) (hb : h.writeBytes ≠ some .notCallable)
    (hsink : st.sink = some (.host h)) (bytes : List UInt8) :
    (st.sinkWriteBytes idle s bytes).events
      = st.events ++ h.toldOfBytes s (st.store.held.get s) bytes := by
  simp only [sinkWriteBytes, hsink]
  unfold Host.toldOfBytes Host.textOnly
  cases hbytes : h.writeBytes with
  | some conduct =>
    have hconduct : conduct ≠ .notCallable := fun heq => hb (heq ▸ hbytes)
    exact events_callHost hconduct ..
  | none =>
    show (st.assemble idle h s bytes).events = _
    unfold assemble
    simp only [Utf8.drain_fst, Option.isNone_none, if_true]
    split_ifs
    · exact (List.append_nil _).symm
    · exact events_callHost hc.1 ..

end Output

-- ============================================================== trace calls

namespace TraceCall

/-- The end of the input, of which nothing is traced. -/
def isEnd : TraceCall → Bool
  | .emitUnit _ .endOfInput => true
  | _ => false

def isByte : TraceCall → Bool
  | .emitUnit _ (.byte _) => true
  | _ => false

end TraceCall

namespace Tracer

/-- What carries a trace call to a host that waits for the rest of the held bytes: its
whole text in one call, or what the host is told of its character or its byte. -/
def carried (t : Tracer) (h : Host) (held : List UInt8) : TraceCall → List Event
  | .emit _ text => [.called (.write .stdout text)]
  | .emitUnit _ .endOfInput => []
  | .emitUnit _ .stringLiteral => [.called (.write .stdout "\"string\"")]
  | .emitUnit _ .charLiteral => [.called (.write .stdout "'c'")]
  | .emitUnit _ (.char c) => [h.toldOfChar .stdout c]
  | .emitUnit _ (.byte b) => h.toldOfBytes .stdout held [b]
  | .parseNest increase depth =>
    [.called (.write .stdout (TraceCall.parseNestText increase depth))]
  | .cppNest begins depth => [.called (.write .stdout (TraceCall.cppNestText begins depth))]
  | .cppIgnore begins => [.called (.write .stdout (TraceCall.cppIgnoreText begins))]
  | .tagEntry tag inHeader => [.called (.write .stdout (tag.entry t.fields inHeader))]

variable {h : Host} {st : Session} {t : Tracer}

theorem perform_of_enabled (hopen : st.isSealed t.console = false) {call : TraceCall}
    (hlevel : t.isEnabled call.level = true) : t.perform idle call st = t.unguarded st call := by
  rw [perform_deeds, deeds, if_pos hlevel, performAll_work_open hopen]

/-- An output and the flush behind it. -/
theorem events_flushed (hf : h.flush ≠ .notCallable) (hsink : st.sink = some (.host h))
    {op : SinkOp} {told : List Event} (hop : (op.perform idle st).2.events = st.events ++ told) :
    (SinkOp.performAll idle st [op, .flush .stdout]).events
      = st.events ++ (told ++ [.called (.flush .stdout)]) := by
  have hsink' := (Keeps.perform st op).sink.trans hsink
  show ((op.perform idle st).2.sinkFlush idle .stdout).events = _
  rw [sinkFlush_host hsink', events_callHost hf, hop, List.append_assoc]

theorem events_unguarded (hc : h.Callable) (hb : h.writeBytes ≠ some .notCallable)
    (hf : h.flush ≠ .notCallable) (hholding : Holding h st) {call : TraceCall}
    (hend : call.isEnd = false) :
    let held := st.store.held.get .stdout
    (t.unguarded st call).events
      = st.events ++ (((if call.isByte then [] else h.toldBefore .stdout held)
          ++ t.carried h held call) ++ [.called (.flush .stdout)]) := by
  intro held
  -- an entry in form is nothing that the host is told of
  have hformed : Holding h (st.formatAll (t.rendered call)) :=
    ⟨hholding.sink, hholding.begins, hholding.nothing⟩
  show (SinkOp.performAll idle _ (t.requests call)).events
    = (st.formatAll (t.rendered call)).events ++ _
  have hwrite := fun text =>
    events_sinkWrite hc hformed.sink (hformed.begins .stdout) text
  cases call with
  | emitUnit level unit =>
    cases unit with
    | endOfInput => cases hend
    | stringLiteral => exact events_flushed hf hformed.sink (hwrite _)
    | charLiteral => exact events_flushed hf hformed.sink (hwrite _)
    | char c =>
      exact events_flushed hf hformed.sink
        (events_sinkPutChar hc hformed.sink (hformed.begins .stdout) c)
    | byte b =>
      exact events_flushed hf hformed.sink (events_sinkWriteBytes hc hb hformed.sink [b])
  | _ => exact events_flushed hf hformed.sink (hwrite _)

-- ================================================================== flushes

/-- A call at a level that is traced flushes once, unless it is the end of the input. -/
theorem foldl_flushesOn_requests (t : Tracer) (call : TraceCall) (n : Nat) :
    (t.requests call).foldl (fun n op => n + op.flushesOn .stdout) n
      = n + if call.isEnd then 0 else 1 := by
  cases call with
  | emitUnit level unit => cases unit <;> rfl
  | _ => rfl

/-- Trace calls over a host that does not call back make output and nothing else. -/
theorem keeps_perform (t : Tracer) (call : TraceCall) (st : Session) :
    Keeps st (t.perform idle call st) := by
  cases hlevel : t.isEnabled call.level with
  | false =>
    rw [show t.perform idle call st = st from if_neg (Bool.eq_false_iff.mp hlevel)]
    exact Keeps.refl st
  | true =>
    cases hs : st.isSealed t.console with
    | false =>
      rw [perform_of_enabled hs hlevel]
      exact keeps_unguarded t st call
    | true =>
      rw [perform_deeds, deeds, if_pos hlevel, Deed.performAll_silent idle (t.silent_work hs)]
      exact ⟨rfl, rfl, rfl⟩

theorem keeps_performAll (t : Tracer) (calls : List TraceCall) (st : Session) :
    Keeps st (t.performAll idle st calls) := by
  induction calls generalizing st with
  | nil => exact Keeps.refl st
  | cons call calls ih => exact (keeps_perform t call st).trans (ih _)

theorem flushCalls_perform (hf : h.flush ≠ .notCallable) (hsink : st.sink = some (.host h))
    (hopen : st.isSealed t.console = false) (call : TraceCall) :
    (t.perform idle call st).flushCalls .stdout = st.flushCalls .stdout
      + if t.isEnabled call.level && !call.isEnd then 1 else 0 := by
  cases hlevel : t.isEnabled call.level with
  | false =>
    have hsame : t.perform idle call st = st := if_neg (Bool.eq_false_iff.mp hlevel)
    rw [hsame]
    rfl
  | true =>
    have hformed : (st.formatAll (t.rendered call)).sink = some (.host h) := hsink
    have hcount := (tracks_flushCalls hf .stdout).performAll hformed rfl (t.requests call)
    rw [foldl_flushesOn_requests] at hcount
    rw [perform_of_enabled hopen hlevel]
    refine hcount.trans ?_
    cases call.isEnd <;> rfl

/-- While the console is not sealed, calls flush as often as they are made. -/
theorem flushCalls_performAll (hf : h.flush ≠ .notCallable) (hsink : st.sink = some (.host h))
    (hopen : st.isSealed t.console = false) (calls : List TraceCall) :
    (t.performAll idle st calls).flushCalls .stdout = st.flushCalls .stdout
      + calls.countP fun call => t.isEnabled call.level && !call.isEnd := by
  induction calls generalizing st with
  | nil => rfl
  | cons call calls ih =>
    have hkeeps := keeps_perform t call st
    have hlater := ih (hkeeps.sink.trans hsink) ((hkeeps.isSealed _).trans hopen)
    rw [List.countP_cons, Nat.add_left_comm, Nat.add_comm, ← flushCalls_perform hf hsink hopen]
    exact hlater

/-- Behind the end of the run, trace calls leave entries in form and nothing else. -/
theorem performAll_of_sealed (hsealed : st.isSealed t.console = true) (calls : List TraceCall) :
    t.performAll idle st calls
      = st.formatAll ((calls.filter fun call => t.isEnabled call.level).flatMap t.rendered) := by
  rw [performAll_work, performAll_work_idle, if_pos hsealed]

/-- A tracer over a host that does not call back, at any moment of any run in which the
console is not sealed. A call at a level that is traced, unless it is the end of the input,
tells the host on standard output, and in this order: of the bytes that are held, one
replacement character, if the host takes text only and the call is not a byte; of the
call itself, all at once; to flush. So calls flush as often as they are made, and behind
the end of the run no more: they leave the entries that are traced in form and nothing else. -/
theorem calls_are_whole_and_flushed (hc : h.Callable) (hb : h.writeBytes ≠ some .notCallable)
    (hf : h.flush ≠ .notCallable) {fresh : Session} (hsink : fresh.sink = some (.host h))
    (hheld : fresh.store.held = ⟨[], []⟩) {trace : List Label} {m : Moment}
    (hrun : Run ⟨[], fresh⟩ trace m) (t : Tracer) (hopen : m.st.isSealed t.console = false) :
    let held := m.st.store.held.get .stdout
    (∀ call : TraceCall, t.isEnabled call.level = true → call.isEnd = false →
      (t.perform idle call m.st).events = m.st.events
        ++ ((if h.textOnly = true ∧ held ≠ [] ∧ call.isByte = false then
              [.called (.write .stdout "\uFFFD")] else [])
          ++ t.carried h held call ++ [.called (.flush .stdout)]))
    ∧ ∀ calls : List TraceCall,
        let traced := t.performAll idle m.st calls
        traced.flushCalls .stdout = m.st.flushCalls .stdout
          + calls.countP (fun call => t.isEnabled call.level && !call.isEnd)
        ∧ ∀ (c : Console) (code : Int32) (later : List TraceCall),
            c.family = t.console.family →
            t.performAll idle (c.terminate idle code traced) later
              = (c.terminate idle code traced).formatAll
                ((later.filter fun call => t.isEnabled call.level).flatMap t.rendered) := by
  intro held
  have hholding := hrun.holding hsink hheld
  refine ⟨?_, ?_⟩
  · intro call hlevel hend
    have hbefore : (if h.textOnly = true ∧ held ≠ [] ∧ call.isByte = false then
          [Event.called (.write .stdout "\uFFFD")] else [])
        = if call.isByte then [] else h.toldBefore .stdout held := by
      unfold Host.toldBefore givenUp
      cases call.isByte <;> cases h.textOnly <;> simp
    rw [perform_of_enabled hopen hlevel, events_unguarded hc hb hf hholding hend, hbefore]
  · intro calls traced
    refine ⟨flushCalls_performAll hf hholding.sink hopen calls, ?_⟩
    intro c code later hfamily
    have hsink' : traced.sink.isSome = true := by
      rw [(keeps_performAll t calls m.st).sink, hholding.sink]
      rfl
    refine performAll_of_sealed ?_ later
    rw [isSealed_congr _ hfamily.symm]
    exact c.isSealed_terminate (playable_idle _) hsink' code

/-- An entry is traced while a host that takes text only waits for the second byte of a
character; a byte that is echoed instead completes the character. -/
theorem calls_are_whole_and_flushed_split_character :
    let h : Host := { write := .returns none, flush := .returns none, exit := .returns none }
    let st : Session := { env := { tempDir := "/tmp" }, sink := some (.host h) }
    let t : Tracer := { console := .main, levels := .full, fields := .full }
    let tag : Tag := { name := "run", kind := "method", access := some "public" }
    ∃ trace m, Run ⟨[], st⟩ trace m ∧ m.st.events = []
      ∧ (t.perform idle (.tagEntry tag false) m.st).events
          = [.called (.write .stdout "\uFFFD"), .called (.write .stdout (tag.entry .full false)),
             .called (.flush .stdout)]
      ∧ (t.perform idle (.emitUnit .raw (.byte 0x96)) m.st).events
          = [.called (.write .stdout "Ж"), .called (.flush .stdout)]
      ∧ (t.performAll idle m.st [.cppNest true 3, .emitUnit .raw .endOfInput,
          .emit .status "done"]).flushCalls .stdout = 2 := by
  intro h st t tag
  have hrun : ∃ trace m, Run ⟨[], st⟩ trace m ∧ m.st.events = []
      ∧ m.st.isSealed t.console = false ∧ m.st.store.held.get .stdout = [0xD0] := by
    refine ⟨_, _, .cons (.start (.sink (.writeBytes .stdout [0xD0])) trivial) (.cons (.ask nofun)
      (.cons .act (.cons .finish (.nil _)))), rfl, rfl, rfl⟩
  obtain ⟨trace, m, hrun, hevents, hopen, hheld⟩ := hrun
  obtain ⟨hwhole, hflushes⟩ := calls_are_whole_and_flushed (h := h) ⟨by decide, by decide⟩
    (by decide) (by decide) rfl rfl hrun t hopen
  refine ⟨trace, m, hrun, hevents, ?_, ?_, ?_⟩
  · rw [hwhole _ (by decide) rfl, hevents, hheld]
    rfl
  · rw [hwhole _ (by decide) rfl, hevents, hheld]
    have hcompleted : Utf8.settled [0xD0, 0x96] = ['Ж'] := by
      rw [← Utf8.drain_fst]
      decide
    simp [carried, Host.toldOfBytes, Host.textOnly, h, TraceCall.isByte, hcompleted]
  · rw [(hflushes _).1]
    unfold flushCalls
    rw [hevents]
    decide

end Tracer

end ScanTrace
