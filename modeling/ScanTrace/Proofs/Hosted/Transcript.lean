/-
What a host that takes text only gets to hear. The sink in front of it works
byte by byte and holds back what is not complete; a transcript knows nothing
of held bytes. It cuts what was asked for on one stream into pieces, runs of
bytes and texts, and reads each run as a whole, at once.

A run of bytes is ended by a text or a character on its stream and by the
end of the run of the program, and by nothing else: a flush does not end it,
nor does anything on the other stream. A run that is still open says what it
says without the sequence it breaks off in.

# The simulation

`Follows` relates a session to the transcript of one stream: what was heard
is what the transcript tells, and what is held is what its open run leaves
unfinished. Every operation of the sink keeps it (`follows_perform`), so a
session follows the transcript through every run (`tracks_follows`), and the
host hears exactly what the transcript tells.
-/
import ScanTrace.Proofs.Hosted.Run
import ScanTrace.Proofs.Utf8.Resume

namespace ScanTrace

/-- What is registered for texts and characters is a function. Only a host that
registers by name can do otherwise. -/
def Host.Callable (h : Host) : Prop := h.write ≠ .notCallable ∧ h.putChar ≠ some .notCallable

-- ============================================================ transcripts

/-- A piece of output on one stream. -/
inductive Piece where
  /-- Bytes, in however many operations they came. -/
  | bytes (run : List UInt8)
  | text (cs : List Char)

/-- The text of a piece, a run of bytes read at once. -/
def Piece.reading : Piece → List Char
  | .bytes run => Utf8.lossy run
  | .text cs => cs

/-- What was asked for on one stream: the pieces that are ended, and the run of
bytes that is still open. -/
structure Transcript where
  ended : List Piece := []
  opened : List UInt8 := []

namespace Transcript

/-- The end of the open run. -/
def close (t : Transcript) : Transcript := { ended := t.ended ++ [.bytes t.opened] }

/-- A text ends the open run. -/
def say (t : Transcript) (cs : List Char) : Transcript :=
  { ended := t.ended ++ [.bytes t.opened, .text cs] }

/-- An operation, as far as it concerns the stream. -/
def add (s : Stream) (t : Transcript) : SinkOp → Transcript
  | .write r text => if r = s then t.say text.toList else t
  | .putChar r c => if r = s then t.say [c] else t
  | .writeBytes r bytes => if r = s then { t with opened := t.opened ++ bytes } else t
  | .terminate _ => t.close
  | .flush _ | .tempDir => t

/-- The transcript of a stream. -/
def of (s : Stream) (ops : List SinkOp) : Transcript := ops.foldl (add s) {}

/-- What a transcript tells: each ended run as a whole, each text as it is, and
of the open run what it says already. -/
def told (t : Transcript) : List Char := t.ended.flatMap Piece.reading ++ Utf8.settled t.opened

theorem told_empty : ({} : Transcript).told = [] := by
  simp [told, Utf8.settled, Utf8.lossy_nil]

theorem told_close (t : Transcript) :
    t.close.told = t.told ++ Utf8.lossy (Utf8.unfinished t.opened) := by
  unfold told close
  rw [List.flatMap_append, List.append_assoc, List.append_assoc, ← Utf8.lossy_eq_settled]
  simp [Piece.reading, Utf8.settled, Utf8.lossy_nil]

theorem told_say (t : Transcript) (cs : List Char) : (t.say cs).told = t.close.told ++ cs := by
  simp [told, say, close, Piece.reading, Utf8.settled, Utf8.lossy_nil]

end Transcript

-- =========================================================== the simulation

/-- A session follows the transcript of a stream, after what was heard before. -/
structure Follows (s : Stream) (before : List Char) (st : Session) (t : Transcript) : Prop where
  heard : st.heard s = before ++ t.told
  held : st.store.held.get s = Utf8.unfinished t.opened

namespace Follows

open Session

variable {h : Host} {s : Stream} {before : List Char} {st : Session} {t : Transcript}

/-- With nothing held for the stream the transcript is empty. -/
theorem afresh (hheld : st.store.held.get s = []) : Follows s (st.heard s) st {} where
  heard := by rw [Transcript.told_empty, List.append_nil]
  held := by rw [hheld, Utf8.unfinished_nil]

theorem start (hheld : st.store.held = ⟨[], []⟩) (s : Stream) :
    Follows s (st.heard s) st {} := by
  refine afresh ?_
  rw [hheld]
  cases s <;> rfl

/-- Releasing what is held for the stream ends the open run. -/
theorem release (hf : Follows s before st t) (hw : h.write ≠ .notCallable) (r : Stream) :
    Follows s before (st.release idle h r) (if r = s then t.close else t) where
  heard := by
    rw [heard_release hw, hf.heard]
    split_ifs
    · rw [hf.held, Transcript.told_close, List.append_assoc]
    · rw [List.append_nil]
  held := by
    rw [held_release]
    split_ifs
    · exact Utf8.unfinished_nil.symm
    · exact hf.held

theorem format (hf : Follows s before st t) (text : String) :
    Follows s before (st.format text) t := ⟨hf.heard, hf.held⟩

theorem note (hf : Follows s before st t) (n : Notice) : Follows s before (st.note n) t :=
  ⟨hf.heard, hf.held⟩

/-- A call that says nothing on the stream changes nothing for it. -/
theorem callHost (hf : Follows s before st t) {conduct : Conduct} {call : Call}
    (hc : call.textOn s = []) : Follows s before (st.callHost idle conduct call) t where
  heard := by rw [heard_callHost_of_textOn_eq_nil hc, hf.heard]
  held := by rw [store_callHost, hf.held]

/-- A text handed over after a release is the text of the transcript. -/
theorem say {r : Stream} (hf : Follows s before st (if r = s then t.close else t))
    {conduct : Conduct} (hc : conduct ≠ .notCallable) {call : Call} {cs : List Char}
    (hcs : call.textOn s = if r = s then cs else []) :
    Follows s before (st.callHost idle conduct call) (if r = s then t.say cs else t) := by
  by_cases hr : r = s
  · rw [if_pos hr] at hf hcs ⊢
    refine ⟨?_, ?_⟩
    · rw [heard_callHost hc, hf.heard, hcs, Transcript.told_say, List.append_assoc]
    · rw [store_callHost, hf.held]
      rfl
  · rw [if_neg hr] at hf hcs ⊢
    exact hf.callHost hcs

/-- Bytes behind held ones: what they settle is heard, what they break off in is
held. -/
theorem assemble (hf : Follows s before st t) (hw : h.write ≠ .notCallable)
    (bytes : List UInt8) :
    Follows s before (st.assemble idle h s bytes) { t with opened := t.opened ++ bytes } := by
  have htold : ({ t with opened := t.opened ++ bytes } : Transcript).told
      = t.told ++ (Utf8.drain (st.store.held.get s ++ bytes)).1 := by
    rw [hf.held, Utf8.drain_fst]
    unfold Transcript.told
    rw [Utf8.settled_append, List.append_assoc]
  have hheld : (Utf8.drain (st.store.held.get s ++ bytes)).2
      = Utf8.unfinished (t.opened ++ bytes) := by
    rw [hf.held, Utf8.drain_snd, ← Utf8.unfinished_append]
  unfold Session.assemble
  dsimp only
  split_ifs with he
  · refine ⟨?_, ?_⟩
    · rw [htold, List.isEmpty_iff.mp he, List.append_nil]
      exact hf.heard
    · rw [held_hold, if_pos rfl]
      exact hheld
  · refine ⟨?_, ?_⟩
    · rw [htold, hostWrite, heard_callHost hw, ← List.append_assoc, ← hf.heard]
      simp [Call.textOn, Session.heard, hold]
    · rw [hostWrite, store_callHost, held_hold, if_pos rfl]
      exact hheld

theorem assemble_of_ne (hf : Follows s before st t) {r : Stream} (hr : r ≠ s)
    (bytes : List UInt8) : Follows s before (st.assemble idle h r bytes) t := by
  have hhold : ∀ kept, Follows s before (st.hold r kept) t := by
    intro kept
    refine ⟨hf.heard, ?_⟩
    rw [held_hold, if_neg hr]
    exact hf.held
  unfold Session.assemble
  dsimp only
  split_ifs with he
  · exact hhold _
  · exact (hhold _).callHost (by simp [Call.textOn, hr])

end Follows

section TextOnly

open Session

variable {h : Host} {s : Stream} {before : List Char} {st : Session} {t : Transcript}

theorem writeBytes_of_textOnly (ht : h.textOnly = true) : h.writeBytes = none :=
  Option.isNone_iff_eq_none.mp ht

theorem settleActs_of_textOnly (ht : h.textOnly = true) (r : Stream) :
    SinkOp.settleActs h r = [.release h r] := if_pos ht

/-- An operation keeps a session and its transcript together. -/
theorem follows_perform (hsink : st.sink = some (.host h)) (ht : h.textOnly = true)
    (hc : h.Callable) (hf : Follows s before st t) (op : SinkOp) :
    Follows s before (op.perform idle st).2 (t.add s op) := by
  obtain ⟨hw, hp⟩ := hc
  rw [SinkOp.perform_hostActs hsink]
  cases op with
  | write r text =>
    rw [SinkOp.hostActs, settleActs_of_textOnly ht]
    exact ((hf.release hw r).format text).say hw rfl
  | putChar r c =>
    rw [SinkOp.hostActs, settleActs_of_textOnly ht]
    cases hput : h.putChar with
    | none => exact (hf.release hw r).say hw (by simp [Call.textOn])
    | some conduct =>
      have hcall : conduct ≠ .notCallable := fun he => hp (he ▸ hput)
      exact (hf.release hw r).say hcall rfl
  | writeBytes r bytes =>
    rw [SinkOp.hostActs, writeBytes_of_textOnly ht]
    simp only [Transcript.add]
    by_cases hr : r = s
    · subst hr
      rw [if_pos rfl]
      exact hf.assemble hw bytes
    · rw [if_neg hr]
      exact hf.assemble_of_ne hr bytes
  | flush r => exact hf.callHost rfl
  | terminate code =>
    have hclosed : Follows s before
        ((st.release idle h .stdout).release idle h .stderr) t.close := by
      cases s <;> exact (hf.release hw .stdout).release hw .stderr
    exact (hclosed.note (.handingOver code)).callHost rfl
  | tempDir =>
    unfold SinkOp.hostActs
    dsimp only
    split
    · exact hf
    · have hcalled : Follows s before (st.callHost idle (.returns none) .tempDir) t :=
        hf.callHost rfl
      exact hcalled.note _
    · exact hf.callHost rfl

/-- Whatever is asked for, a session and its transcript go along. -/
theorem tracks_follows (ht : h.textOnly = true) (hc : h.Callable) :
    Tracks (.host h) (Transcript.add s) (Follows s before) where
  perform hsink hf op := follows_perform hsink ht hc hf op
  markSealed hf _ := ⟨hf.heard, hf.held⟩
  note hf n := hf.note n

/-- What such a host hears in a run is the transcript of its script. -/
theorem heard_run (ht : h.textOnly = true) (hc : h.Callable) (env : Environment) (c : Console)
    (ops : List ConsoleOp) (s : Stream) :
    (ConsoleOp.performAll idle c { env := env, sink := some (.host h) } ops).heard s
      = (Transcript.of s (ConsoleOp.script false ops)).told := by
  let fresh : Session := { env := env, sink := some (.host h) }
  have hstart : Follows s [] fresh {} := Follows.start (show fresh.store.held = _ from rfl) s
  exact ((tracks_follows ht hc).run rfl hstart ops).heard

end TextOnly

/-- On each stream a text-only host that does not call back hears exactly the
transcript: every ended run of bytes read as a whole, every text as it is,
and of a run that is still open its reading without the one replacement
character of the sequence it breaks off in, which is what is held. -/
theorem text_only_host_hears_transcript {h : Host} (ht : h.textOnly = true) (hc : h.Callable)
    {st : Session} (hsink : st.sink = some (.host h)) (hheld : st.store.held = ⟨[], []⟩)
    (ops : List SinkOp) (s : Stream) :
    let after := SinkOp.performAll Session.idle st ops
    let t := Transcript.of s ops
    after.heard s = st.heard s ++ (t.ended.flatMap Piece.reading ++ Utf8.settled t.opened)
      ∧ Utf8.lossy t.opened = Utf8.settled t.opened
          ++ (if (Utf8.unfinished t.opened).isEmpty then [] else [Utf8.replacement])
      ∧ after.store.held.get s = Utf8.unfinished t.opened := by
  have hend := (tracks_follows ht hc).performAll hsink (Follows.start hheld s) ops
  refine ⟨hend.heard, ?_, hend.held⟩
  rw [← Utf8.lossy_unfinished]
  exact Utf8.lossy_eq_settled _

/-- The euro sign in two pieces, across a flush and a write to the other stream,
then a first byte that a text cuts off, then one that stays open. -/
theorem text_only_host_hears_split_sign :
    let h : Host := { write := .returns none, flush := .returns none, exit := .returns none }
    let st : Session := { env := { tempDir := "/tmp" }, sink := some (.host h) }
    let ops : List SinkOp :=
      [.writeBytes .stdout [0xE2, 0x82], .flush .stdout, .writeBytes .stderr [0x41],
       .writeBytes .stdout [0xAC, 0xD0], .write .stdout "x", .writeBytes .stdout [0x21, 0xC3]]
    (SinkOp.performAll Session.idle st ops).heard .stdout = ['€', '\uFFFD', 'x', '!']
      ∧ (SinkOp.performAll Session.idle st ops).store.held.get .stdout = [0xC3] := by
  intro h st ops
  have hears := text_only_host_hears_transcript (show h.textOnly = true from rfl)
    ⟨by decide, by decide⟩ (show st.sink = some (.host h) from rfl)
    (show st.store.held = ⟨[], []⟩ from rfl) ops .stdout
  refine ⟨hears.1.trans ?_, hears.2.2.trans ?_⟩
  · rw [← Utf8.drain_fst]
    show [] ++ ([Piece.bytes [0xE2, 0x82, 0xAC, 0xD0], Piece.text ['x']].flatMap Piece.reading
      ++ (Utf8.drain [0x21, 0xC3]).1) = ['€', '\uFFFD', 'x', '!']
    simp only [List.flatMap_cons, List.flatMap_nil, Piece.reading, Utf8.lossy_eq_drain]
    decide
  · rw [← Utf8.drain_snd]
    decide

end ScanTrace
