/-
The two streams of a sink are apart. Whatever is done to one of them leaves
the other as it is: the calls that the host receives about it, the bytes that
memory collects for it, and the bytes that are held back for it. So a run
shows on a stream what it would show if nothing had ever been done to the
other one.

# Two runs

`SameOn s` relates two sessions that cannot be told apart on the stream `s`;
how they differ on the other stream, in their notices or in the texts that
were put into form is nobody's business there. It has two kinds of laws:

- an act that is not about `s` keeps a session the same on `s`
  (`SameOn.spared`), so one of two runs may do it alone;
- any act keeps two such sessions the same, when both do it
  (`SameOn.act`), because what it does on `s` depends on what they share.

A run and the run without its operations on the other stream do each
operation together or alone. The end of a run belongs to no stream; it is
done by both, and what it releases on `s` is then the same.
-/
import ScanTrace.Proofs.Hosted.Run

namespace ScanTrace

open Session

-- ======================================================= what is for a stream

/-- The stream that is not this one. -/
def Stream.other : Stream → Stream
  | .stdout => .stderr
  | .stderr => .stdout

theorem Stream.other_ne (s : Stream) : s.other ≠ s := by cases s <;> decide

/-- The stream that a call is about. -/
def Call.stream? : Call → Option Stream
  | .write s _ | .writeBytes s _ | .putChar s _ | .flush s => some s
  | .exit _ | .tempDir => none

/-- A call that is about a stream. -/
def Call.on (s : Stream) (call : Call) : List Call :=
  if call.stream? = some s then [call] else []

/-- The writes, characters and flushes on a stream that the host received. -/
def Session.callsOn (st : Session) (s : Stream) : List Call := st.gather (Call.on s)

def Act.stream? : Act → Option Stream
  | .release _ s | .assemble _ s _ | .collect s _ | .emitDirect s _ | .flushDirect s => some s
  | .tell _ call => call.stream?
  | .format _ | .countFlush | .keepExitCode _ | .note _ => none

def SinkOp.stream? : SinkOp → Option Stream
  | .write s _ | .writeBytes s _ | .putChar s _ | .flush s => some s
  | .terminate _ | .tempDir => none

/-- The stream that an operation is for. Single characters and texts without a
stream are for standard output; the end of the run is for both, and is given
none. -/
def ConsoleOp.stream? : ConsoleOp → Option Stream
  | .print _ | .printTelling _ | .puts _ | .putChar _ | .flush => some .stdout
  | .eprint _ => some .stderr
  | .write s _ | .writeBytes s _ | .flushStream s | .streamName s | .streamWrite s _
  | .streamWriteAll s _ | .streamFlush s | .streamWriteText s _ | .streamWriteChar s _ => some s
  | .terminate _ | .isTerminated | .tempDir | .describe => none

/-- What an operation for a stream does is for that stream alone. -/
theorem SinkOp.stream?_acts {op : SinkOp} {s : Stream} (h : op.stream? = some s.other)
    (sink : Option Sink) : ∀ a ∈ op.acts sink, a.stream? ≠ some s := by
  have hne : some s.other ≠ some s := fun he => s.other_ne (Option.some.inj he)
  have hsettle : ∀ (h : Host), ∀ a ∈ settleActs h s.other, a.stream? ≠ some s := by
    intro h a ha
    unfold settleActs at ha
    split_ifs at ha
    · rw [List.mem_singleton.mp ha]
      exact hne
    · cases ha
  rcases sink with _ | dir | _ | _ | host
  · exact fun a ha => nomatch ha
  · cases op <;> cases h <;> simp [acts, memoryActs, Act.stream?, hne]
  · cases op <;> cases h <;> simp [acts, directActs, Act.stream?, hne]
  · cases op <;> cases h <;> simp [acts, plainActs, Act.stream?, Call.stream?, hne]
  · intro a ha
    cases op with
    | write r text =>
      cases h
      rcases List.mem_append.mp ha with ha | ha
      · exact hsettle host a ha
      · rcases List.mem_pair.mp ha with rfl | rfl
        · exact nofun
        · exact hne
    | writeBytes r bytes =>
      cases h
      simp only [acts, hostActs] at ha
      split at ha <;> (rw [List.mem_singleton.mp ha]; exact hne)
    | putChar r c =>
      cases h
      rcases List.mem_append.mp ha with ha | ha
      · exact hsettle host a ha
      · split at ha <;> (rw [List.mem_singleton.mp ha]; exact hne)
    | flush r =>
      cases h
      rw [List.mem_singleton.mp ha]
      exact hne
    | terminate code => cases h
    | tempDir => cases h

theorem ConsoleOp.stream?_requests {op : ConsoleOp} {s : Stream} (h : op.stream? = some s) :
    ∀ r ∈ op.requests, r.stream? = some s := by
  cases op with
  | writeBytes r bytes | streamWrite r bytes | streamWriteAll r bytes =>
    cases h
    simp only [requests]
    split_ifs <;> simp [SinkOp.stream?]
  | terminate code | isTerminated | tempDir | describe => cases h
  | _ =>
    cases h
    simp [requests, SinkOp.stream?]

-- ======================================================== the same on a stream

/-- Two sessions that cannot be told apart on a stream. -/
structure SameOn (s : Stream) (st st' : Session) : Prop where
  keeps : Keeps st st'
  held : st'.store.held.get s = st.store.held.get s
  written : st'.store.written.get s = st.store.written.get s
  calls : st'.callsOn s = st.callsOn s

namespace SameOn

variable {s : Stream} {st st' st'' : Session}

theorem refl (st : Session) : SameOn s st st := ⟨Keeps.refl st, rfl, rfl, rfl⟩

theorem symm (h : SameOn s st st') : SameOn s st' st :=
  ⟨⟨h.keeps.env.symm, h.keeps.sink.symm, h.keeps.sealedFamilies.symm⟩, h.held.symm,
    h.written.symm, h.calls.symm⟩

theorem trans (h : SameOn s st st') (h' : SameOn s st' st'') : SameOn s st st'' :=
  ⟨h.keeps.trans h'.keeps, h'.held.trans h.held, h'.written.trans h.written,
    h'.calls.trans h.calls⟩

-- ------------------------------------------------ what is not for the stream

theorem note (st : Session) (n : Notice) : SameOn s st (st.note n) :=
  ⟨⟨rfl, rfl, rfl⟩, rfl, rfl, rfl⟩

theorem spared_callHost {call : Call} (hcall : call.stream? ≠ some s) (conduct : Conduct)
    (st : Session) : SameOn s st (st.callHost idle conduct call) where
  keeps := Keeps.act st (.tell conduct call)
  held := by rw [store_callHost]
  written := by rw [store_callHost]
  calls := gather_callHost_of_eq_nil (if_neg hcall) st

theorem spared_write {r : Stream} (hr : r ≠ s) (h : Host) (text : String) (st : Session) :
    SameOn s st (st.hostWrite idle h r text) := by
  have hcall : (Call.write r text).stream? ≠ some s := fun he => hr (Option.some.inj he)
  exact spared_callHost hcall h.write st

theorem spared_hold {r : Stream} (hr : r ≠ s) (bytes : List UInt8) (st : Session) :
    SameOn s st (st.hold r bytes) where
  keeps := Keeps.hold r bytes st
  held := by rw [held_hold, if_neg hr]
  written := rfl
  calls := rfl

theorem spared_collect {r : Stream} (hr : r ≠ s) (bytes : List UInt8) (st : Session) :
    SameOn s st (st.collect r bytes) where
  keeps := ⟨rfl, rfl, rfl⟩
  held := rfl
  written := PerStream.get_set_of_ne _ _ (Ne.symm hr)
  calls := rfl

theorem rebuffer (r : Stream) (next : LineBuffer → LineBuffer) (st : Session) :
    SameOn s st (st.rebuffer r next) := by
  cases r with
  | stdout => exact ⟨⟨rfl, rfl, rfl⟩, rfl, rfl, rfl⟩
  | stderr => exact refl st

/-- An act that is not for a stream leaves it as it is. -/
theorem spared {a : Act} (ha : a.stream? ≠ some s) (st : Session) :
    SameOn s st (a.perform idle st) := by
  have hne : ∀ {r : Stream}, some r ≠ some s → r ≠ s := fun h he => h (congrArg some he)
  cases a with
  | release h r =>
    show SameOn s st (st.release idle h r)
    unfold Session.release
    dsimp only
    split_ifs
    · exact refl st
    · exact (spared_hold (hne ha) [] st).trans (spared_write (hne ha) ..)
  | assemble h r bytes =>
    show SameOn s st (st.assemble idle h r bytes)
    unfold Session.assemble
    dsimp only
    split_ifs
    · exact spared_hold (hne ha) _ st
    · exact (spared_hold (hne ha) _ st).trans (spared_write (hne ha) ..)
  | tell conduct call => exact spared_callHost ha conduct st
  | collect r bytes => exact spared_collect (hne ha) bytes st
  | emitDirect r bytes =>
    show SameOn s st (st.emitDirect r bytes)
    unfold Session.emitDirect
    split_ifs
    · exact refl st
    · exact (spared_collect (hne ha) bytes st).trans (rebuffer ..)
  | flushDirect r => exact rebuffer r _ st
  | format text | countFlush | keepExitCode code | note n =>
    exact ⟨⟨rfl, rfl, rfl⟩, rfl, rfl, rfl⟩

-- ---------------------------------------------------- what is done by both

theorem callHost (h : SameOn s st st') (conduct : Conduct) (call : Call) :
    SameOn s (st.callHost idle conduct call) (st'.callHost idle conduct call) := by
  by_cases hc : conduct = .notCallable
  · subst hc
    exact ((note st _).symm.trans h).trans (note st' _)
  · have hkeeps := Keeps.act st (.tell conduct call)
    have hkeeps' := Keeps.act st' (.tell conduct call)
    refine ⟨⟨?_, ?_, ?_⟩, ?_, ?_, ?_⟩
    · exact hkeeps'.env.trans (h.keeps.env.trans hkeeps.env.symm)
    · exact hkeeps'.sink.trans (h.keeps.sink.trans hkeeps.sink.symm)
    · exact hkeeps'.sealedFamilies.trans (h.keeps.sealedFamilies.trans
        hkeeps.sealedFamilies.symm)
    · rw [store_callHost, store_callHost, h.held]
    · rw [store_callHost, store_callHost, h.written]
    · refine (gather_callHost hc call st').trans ?_
      refine Eq.trans ?_ (gather_callHost hc call st).symm
      rw [show st'.gather (Call.on s) = st.gather (Call.on s) from h.calls]

theorem hold (h : SameOn s st st') (r : Stream) (bytes : List UInt8) :
    SameOn s (st.hold r bytes) (st'.hold r bytes) where
  keeps := ⟨h.keeps.env, h.keeps.sink, h.keeps.sealedFamilies⟩
  held := by rw [held_hold, held_hold, h.held]
  written := h.written
  calls := h.calls

theorem collect (h : SameOn s st st') (bytes : List UInt8) :
    SameOn s (st.collect s bytes) (st'.collect s bytes) where
  keeps := ⟨h.keeps.env, h.keeps.sink, h.keeps.sealedFamilies⟩
  held := h.held
  written := by
    show (PerStream.set _ s _).get s = (PerStream.set _ s _).get s
    rw [PerStream.get_set_self, PerStream.get_set_self, h.written]
  calls := h.calls

/-- An act that both do leaves them the same. -/
theorem act (h : SameOn s st st') (a : Act) :
    SameOn s (a.perform idle st) (a.perform idle st') := by
  by_cases ha : a.stream? = some s
  · cases a with
    | release host r =>
      cases ha
      show SameOn s (st.release idle host s) (st'.release idle host s)
      unfold Session.release
      dsimp only
      rw [h.held]
      split_ifs
      · exact h
      · exact (h.hold s []).callHost _ _
    | assemble host r bytes =>
      cases ha
      show SameOn s (st.assemble idle host s bytes) (st'.assemble idle host s bytes)
      unfold Session.assemble
      dsimp only
      rw [h.held]
      split_ifs
      · exact h.hold s _
      · exact (h.hold s _).callHost _ _
    | tell conduct call => exact h.callHost conduct call
    | collect r bytes =>
      cases ha
      exact h.collect bytes
    | emitDirect r bytes =>
      cases ha
      show SameOn s (st.emitDirect s bytes) (st'.emitDirect s bytes)
      unfold Session.emitDirect
      rw [h.keeps.env]
      split_ifs
      · exact h
      · exact ((rebuffer s _ _).symm.trans (h.collect bytes)).trans (rebuffer s _ _)
    | flushDirect r => exact ((rebuffer r _ st).symm.trans h).trans (rebuffer r _ st')
    | format text | countFlush | keepExitCode code | note n => cases ha
  · exact ((spared ha st).symm.trans h).trans (spared ha st')

-- ================================================================ operations

theorem spared_acts {as : List Act} (has : ∀ a ∈ as, a.stream? ≠ some s) (st : Session) :
    SameOn s st (Act.performAll idle st as) := by
  induction as generalizing st with
  | nil => exact refl st
  | cons a as ih =>
    have ha := spared (has a List.mem_cons_self) st
    exact ha.trans (ih (fun b hb => has b (List.mem_cons_of_mem _ hb)) _)

theorem acts (h : SameOn s st st') (as : List Act) :
    SameOn s (Act.performAll idle st as) (Act.performAll idle st' as) := by
  induction as generalizing st st' with
  | nil => exact h
  | cons a as ih => exact ih (h.act a)

theorem spared_request {op : SinkOp} (hop : op.stream? = some s.other) (st : Session) :
    SameOn s st (op.perform idle st).2 := by
  rw [SinkOp.perform_acts]
  exact spared_acts (SinkOp.stream?_acts hop st.sink) st

theorem request (h : SameOn s st st') (op : SinkOp) :
    SameOn s (op.perform idle st).2 (op.perform idle st').2 := by
  rw [SinkOp.perform_acts, SinkOp.perform_acts, h.keeps.sink]
  exact h.acts _

theorem mark (h : SameOn s st st') (c : Console) (code : Int32) :
    SameOn s ((st.markSealed c).note (.terminating code))
      ((st'.markSealed c).note (.terminating code)) where
  keeps := ⟨h.keeps.env, h.keeps.sink, congrArg (c.family :: ·) h.keeps.sealedFamilies⟩
  held := h.held
  written := h.written
  calls := h.calls

theorem terminate (h : SameOn s st st') (c : Console) (code : Int32) :
    SameOn s (c.terminate idle code st) (c.terminate idle code st') := by
  have hsealed := h.keeps.isSealed c
  cases hs : st.isSealed c with
  | true =>
    rw [c.terminate_sealed idle hs, c.terminate_sealed idle (hsealed.trans hs)]
    exact ((note st _).symm.trans h).trans (note st' _)
  | false =>
    rw [c.terminate_closing idle hs, c.terminate_closing idle (hsealed.trans hs)]
    have hflushed := (h.request (.flush .stdout)).request (.flush .stderr)
    exact (hflushed.mark c code).request (.terminate code)

theorem deed (h : SameOn s st st') (d : Deed) :
    SameOn s (d.perform idle st) (d.perform idle st') := by
  rcases d with ⟨_ | c, op⟩ | ⟨c, code⟩ | ⟨c, code⟩ | text
  · exact h.request op
  · have hsealed := h.keeps.isSealed c
    cases hs : st.isSealed c with
    | true =>
      rw [Deed.perform_ask_sealed idle hs, Deed.perform_ask_sealed idle (hsealed.trans hs)]
      exact h
    | false =>
      rw [Deed.perform_ask_open idle hs, Deed.perform_ask_open idle (hsealed.trans hs)]
      exact h.request op
  · exact h.terminate c code
  · exact h.mark c code
  · exact h.act (.format text)

theorem deeds (h : SameOn s st st') (ds : List Deed) :
    SameOn s (Deed.performAll idle st ds) (Deed.performAll idle st' ds) := by
  induction ds generalizing st st' with
  | nil => exact h
  | cons d ds ih => exact ih (h.deed d)

theorem operation (h : SameOn s st st') (c : Console) (op : ConsoleOp) :
    SameOn s (op.perform idle c st).2 (op.perform idle c st').2 := by
  rw [ConsoleOp.perform_deeds, ConsoleOp.perform_deeds]
  exact h.deeds _

theorem spared_requests {ops : List SinkOp} (hops : ∀ op ∈ ops, op.stream? = some s.other)
    (st : Session) : SameOn s st (SinkOp.performAll idle st ops) := by
  induction ops generalizing st with
  | nil => exact refl st
  | cons op ops ih =>
    have hop := spared_request (hops op List.mem_cons_self) st
    exact hop.trans (ih (fun q hq => hops q (List.mem_cons_of_mem _ hq)) _)

/-- An operation for one stream leaves the other as it is. -/
theorem spared_operation {op : ConsoleOp} (hop : op.stream? = some s.other) (c : Console)
    (st : Session) : SameOn s st (op.perform idle c st).2 := by
  have hends : op.ends = false := by
    cases op with
    | terminate code => cases hop
    | _ => rfl
  have hasked : ∀ r ∈ op.asked (st.isSealed c), r.stream? = some s.other := by
    intro r hr
    refine op.stream?_requests hop r ?_
    cases op with
    | tempDir => cases hop
    | _ =>
      simp only [ConsoleOp.asked] at hr
      split_ifs at hr
      · cases hr
      · exact hr
  rw [ConsoleOp.perform_asked hends]
  exact spared_requests hasked st

end SameOn

-- ================================================================ two runs

/-- Operations on any consoles over the sink, one after another. -/
def Session.performEach (react : React) (st : Session) (ops : List (Console × ConsoleOp)) :
    Session :=
  ops.foldl (fun st op => (op.2.perform react op.1 st).2) st

/-- The operations that are not for the other stream, the ends of runs among them. -/
def ConsoleOp.without (r : Stream) (ops : List (Console × ConsoleOp)) :
    List (Console × ConsoleOp) :=
  ops.filter fun op => op.2.stream? ≠ some r

theorem SameOn.run {s : Stream} {st st' : Session} (h : SameOn s st st')
    (ops : List (Console × ConsoleOp)) :
    SameOn s (st.performEach idle ops) (st'.performEach idle (ConsoleOp.without s.other ops)) := by
  induction ops generalizing st st' with
  | nil => exact h
  | cons op ops ih =>
    by_cases hop : op.2.stream? = some s.other
    · have hskip : ConsoleOp.without s.other (op :: ops) = ConsoleOp.without s.other ops :=
        List.filter_cons_of_neg (by simpa using hop)
      rw [hskip]
      exact ih ((SameOn.spared_operation hop op.1 st).symm.trans h)
    · have hboth : ConsoleOp.without s.other (op :: ops)
          = op :: ConsoleOp.without s.other ops :=
        List.filter_cons_of_pos (by simpa using hop)
      rw [hboth]
      exact ih (h.operation op.1 op.2)

/-- Of a run over any sink, in any state and through any consoles, a stream shows
what it shows of the run without its operations on the other stream: the same
writes, characters and flushes reach the host, the same bytes are collected,
and the same bytes are held back. None of the operations that are left out does
anything to the stream, at whatever point of the run it comes. -/
theorem streams_do_not_interfere (st : Session) (ops : List (Console × ConsoleOp)) (s : Stream) :
    let whole := st.performEach idle ops
    let alone := st.performEach idle (ConsoleOp.without s.other ops)
    whole.callsOn s = alone.callsOn s
      ∧ whole.store.written.get s = alone.store.written.get s
      ∧ whole.store.held.get s = alone.store.held.get s
      ∧ ∀ (c : Console) (op : ConsoleOp), op.stream? = some s.other →
          let next := (op.perform idle c whole).2
          next.callsOn s = whole.callsOn s ∧ next.store.written.get s = whole.store.written.get s
            ∧ next.store.held.get s = whole.store.held.get s := by
  intro whole alone
  have hrun : SameOn s whole alone := (SameOn.refl st).run ops
  refine ⟨hrun.calls.symm, hrun.written.symm, hrun.held.symm, ?_⟩
  intro c op hop next
  have hnext : SameOn s whole next := SameOn.spared_operation hop c whole
  exact ⟨hnext.calls, hnext.written, hnext.held⟩

/-- Two characters cut in two, their halves in turn on the two streams, with a flush
of standard error between them: each stream gets its own character whole. -/
theorem streams_do_not_interfere_split_characters :
    let h : Host := { write := .returns none, flush := .returns none, exit := .returns none }
    let st : Session := { env := { tempDir := "/tmp" }, sink := some (.host h) }
    let ops : List (Console × ConsoleOp) :=
      [(.main, .writeBytes .stdout [0xD0]), (.main, .streamWrite .stderr [0xC3]),
       (.main, .streamFlush .stderr), (⟨2⟩, .writeBytes .stdout [0x96]),
       (.main, .streamWrite .stderr [0xA9]), (.main, .terminate 0)]
    (st.performEach idle ops).callsOn .stdout = [.write .stdout "Ж", .flush .stdout]
      ∧ (st.performEach idle ops).callsOn .stderr
        = [.flush .stderr, .write .stderr "é", .flush .stderr] := by
  intro h st ops
  have hout := streams_do_not_interfere st ops .stdout
  have herr := streams_do_not_interfere st ops .stderr
  exact ⟨hout.1.trans (by decide), herr.1.trans (by decide)⟩

end ScanTrace
