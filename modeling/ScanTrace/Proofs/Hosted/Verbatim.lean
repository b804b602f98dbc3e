/-
Hosts that take bytes. For such a host nothing is ever held back, so each
request for output is one call, with what was passed and nothing else: a
text stays a text, a character stays one or becomes a text of one, and bytes
are handed over as they came, whether they are well-formed or not.

# Pieces

What is compared are the pieces of output on a stream: those that a run
passes before its console is sealed (`ConsoleOp.piecesOn`), and those of
which the host is told. They are the same list (`told_run`). Sinks that
append collect the bytes of the very same pieces, so after any number of
operations all of them have the same bytes.
-/
import ScanTrace.Proofs.Hosted.Collected
import ScanTrace.Proofs.Hosted.Severed

namespace ScanTrace

open Session

/-- A host that takes bytes, and of which the functions for output are functions. -/
structure Host.TakesBytes (h : Host) : Prop where
  callable : h.Callable
  bytes : ∃ conduct, h.writeBytes = some conduct ∧ conduct ≠ .notCallable

-- ================================================================== pieces

/-- A piece of output, for the stream that it is on. -/
def Piece.on (r s : Stream) (p : Piece) : List Piece := if r = s then [p] else []

/-- The pieces that a request passes on a stream. -/
def SinkOp.piecesOn (s : Stream) : SinkOp → List Piece
  | .write r text => (Piece.text text.toList).on r s
  | .writeBytes r bytes => (Piece.bytes bytes).on r s
  | .putChar r c => (Piece.text [c]).on r s
  | .flush _ | .terminate _ | .tempDir => []

/-- The pieces that a call hands over on a stream. -/
def Call.piecesOn (s : Stream) : Call → List Piece
  | .write r text => (Piece.text text.toList).on r s
  | .writeBytes r bytes => (Piece.bytes bytes).on r s
  | .putChar r c => (Piece.text [c]).on r s
  | .flush _ | .exit _ | .tempDir => []

/-- The pieces that the host was told of on a stream. -/
def Session.told (st : Session) (s : Stream) : List Piece := st.gather (Call.piecesOn s)

/-- The pieces that an operation passes on a stream. Of bytes none at all are no
piece. -/
def ConsoleOp.piecesOn (s : Stream) : ConsoleOp → List Piece
  | .print text | .printTelling text => (Piece.text text.toList).on .stdout s
  | .eprint text => (Piece.text text.toList).on .stderr s
  | .puts text => (Piece.text (text.toList ++ ['\n'])).on .stdout s
  | .putChar c => (Piece.text [c]).on .stdout s
  | .write r text | .streamWriteText r text => (Piece.text text.toList).on r s
  | .streamWriteChar r c => (Piece.text [c]).on r s
  | .writeBytes r bytes | .streamWrite r bytes | .streamWriteAll r bytes =>
    if bytes.isEmpty then [] else (Piece.bytes bytes).on r s
  | .flush | .flushStream _ | .streamFlush _ | .terminate _ | .isTerminated | .tempDir
  | .describe | .streamName _ => []

/-- The pieces that a run passes on a stream until it is ended. -/
def ConsoleOp.passed (s : Stream) (ops : List ConsoleOp) : List Piece :=
  (ops.takeWhile fun op => !op.ends).flatMap (piecesOn s)

theorem Piece.flatMap_raw_on (r s : Stream) (p : Piece) :
    (p.on r s).flatMap Piece.raw = if r = s then p.raw else [] := by
  unfold Piece.on
  split_ifs <;> simp

theorem SinkOp.bytesOn_eq_piecesOn (s : Stream) (op : SinkOp) :
    op.bytesOn s = (op.piecesOn s).flatMap Piece.raw := by
  cases op with
  | write r text => exact (Piece.flatMap_raw_on r s (.text text.toList)).symm
  | writeBytes r bytes => exact (Piece.flatMap_raw_on r s (.bytes bytes)).symm
  | putChar r c => exact (Piece.flatMap_raw_on r s (.text [c])).symm
  | flush r | terminate code | tempDir => rfl

namespace ConsoleOp

theorem flatMap_requests (s : Stream) (op : ConsoleOp) :
    op.requests.flatMap (SinkOp.piecesOn s) = op.piecesOn s := by
  cases op with
  | puts text => simp [requests, piecesOn, SinkOp.piecesOn]
  | streamWriteChar r c => simp [requests, piecesOn, SinkOp.piecesOn]
  | writeBytes r bytes | streamWrite r bytes | streamWriteAll r bytes =>
    simp only [requests, piecesOn]
    split_ifs <;> simp [SinkOp.piecesOn]
  | _ => simp [requests, piecesOn, SinkOp.piecesOn]

/-- What a script passes, the operations up to the end of the run pass. -/
theorem flatMap_script (s : Stream) (ops : List ConsoleOp) :
    (script false ops).flatMap (SinkOp.piecesOn s) = passed s ops := by
  have hsealed : ∀ rest, (script true rest).flatMap (SinkOp.piecesOn s) = [] := by
    intro rest
    induction rest with
    | nil => rfl
    | cons op rest ih => cases op <;> exact ih
  induction ops with
  | nil => rfl
  | cons op ops ih =>
    unfold passed at ih ⊢
    cases hends : op.ends with
    | true =>
      rw [List.takeWhile_cons_of_neg (by simp [hends]), List.flatMap_nil]
      cases op with
      | terminate code => exact hsealed ops
      | _ => cases hends
    | false =>
      have hasked : op.asked false = op.requests := by cases op <;> rfl
      rw [List.takeWhile_cons_of_pos (by simp [hends]), List.flatMap_cons, ← flatMap_requests,
        ← ih, script, hends, hasked, List.flatMap_append]
      rfl

end ConsoleOp

-- ================================================================= telling

/-- A host that takes bytes has been told of some pieces, and nothing is held. -/
structure Tells (s : Stream) (st : Session) (pieces : List Piece) : Prop where
  held : st.store.held = ⟨[], []⟩
  told : st.told s = pieces

namespace Tells

variable {h : Host} {s : Stream} {st : Session} {pieces : List Piece}

theorem callHost (ht : Tells s st pieces) {conduct : Conduct} (hc : conduct ≠ .notCallable)
    (call : Call) : Tells s (st.callHost idle conduct call) (pieces ++ call.piecesOn s) where
  held := by rw [store_callHost, ht.held]
  told := by
    rw [← ht.told]
    exact gather_callHost hc call st

theorem callHost_of_eq_nil (ht : Tells s st pieces) {conduct : Conduct} {call : Call}
    (hcall : call.piecesOn s = []) : Tells s (st.callHost idle conduct call) (pieces ++ []) where
  held := by rw [store_callHost, ht.held]
  told := by
    rw [List.append_nil, ← ht.told]
    exact gather_callHost_of_eq_nil hcall st

theorem format (ht : Tells s st pieces) (text : String) : Tells s (st.format text) pieces :=
  ⟨ht.held, ht.told⟩

theorem unchanged (ht : Tells s st pieces) : Tells s st (pieces ++ []) := by
  rwa [List.append_nil]

/-- There is nothing to release. -/
theorem release_eq (ht : Tells s st pieces) (react : React) (r : Stream) :
    st.release react h r = st := by
  have hempty : (st.store.held.get r).isEmpty = true := by
    rw [ht.held]
    cases r <;> rfl
  unfold Session.release
  dsimp only
  rw [if_pos hempty]

end Tells

section TakesBytes

variable {h : Host} {s : Stream}

/-- Each request is the one call that it should be. -/
theorem tracks_tells (hb : h.TakesBytes) :
    Tracks (.host h) (fun pieces op => pieces ++ op.piecesOn s) (Tells s) where
  perform := by
    obtain ⟨⟨hwrite, hput⟩, bytesConduct, hbytes, hcallable⟩ := hb
    intro st pieces hsink ht op
    have hsettle : ∀ r, SinkOp.settleActs h r = [] := by
      intro r
      unfold SinkOp.settleActs Host.textOnly
      rw [hbytes]
      rfl
    rw [SinkOp.perform_hostActs hsink]
    cases op with
    | write r text =>
      rw [SinkOp.hostActs, hsettle]
      exact (ht.format text).callHost hwrite (.write r text)
    | writeBytes r bytes =>
      rw [SinkOp.hostActs, hbytes]
      exact ht.callHost hcallable (.writeBytes r bytes)
    | putChar r c =>
      rw [SinkOp.hostActs, hsettle]
      cases hp : h.putChar with
      | none =>
        have htext : (SinkOp.putChar r c).piecesOn s = (Call.write r c.toString).piecesOn s := by
          simp [SinkOp.piecesOn, Call.piecesOn]
        rw [htext]
        exact ht.callHost hwrite (.write r c.toString)
      | some conduct =>
        have hc : conduct ≠ .notCallable := fun he => hput (he ▸ hp)
        exact ht.callHost hc (.putChar r c)
    | flush r => exact ht.callHost_of_eq_nil rfl
    | terminate code =>
      show Tells s ((((st.release idle h .stdout).release idle h .stderr).note
        (.handingOver code)).callHost idle h.exit (.exit code)) _
      rw [ht.release_eq, ht.release_eq]
      have hnoted : Tells s (st.note (.handingOver code)) pieces := ⟨ht.held, ht.told⟩
      exact hnoted.callHost_of_eq_nil rfl
    | tempDir =>
      unfold SinkOp.hostActs
      dsimp only
      split
      · exact ht.unchanged
      · have hcalled : Tells s (st.callHost idle (.returns none) .tempDir) (pieces ++ []) :=
          ht.callHost_of_eq_nil rfl
        exact ⟨hcalled.held, hcalled.told⟩
      · exact ht.callHost_of_eq_nil rfl
  markSealed ht _ := ⟨ht.held, ht.told⟩
  note ht _ := ⟨ht.held, ht.told⟩

/-- A host that takes bytes is told of the pieces that a run passes. -/
theorem told_run (hb : h.TakesBytes) (env : Environment) (c : Console) (ops : List ConsoleOp)
    (s : Stream) :
    (ConsoleOp.performAll idle c { env := env, sink := some (.host h) } ops).told s
      = ConsoleOp.passed s ops := by
  have hstart : Tells s { env := env, sink := some (.host h) } [] := ⟨rfl, rfl⟩
  have hend := ((tracks_tells hb).run (c := c) rfl hstart ops).told
  rw [hend, ← List.flatMap_eq_foldl]
  exact ConsoleOp.flatMap_script s ops

end TakesBytes

-- =============================================================== agreement

/-- After any operations of a console and its clones a host that takes bytes and
does not call back has been told, on each stream, of exactly the pieces that
were passed before the console was sealed, each as it was; and every sink that
appends has collected their bytes, and so the bytes that the host received. -/
theorem raw_host_agrees_with_appending_sinks {h : Host} (hb : h.TakesBytes) (env : Environment)
    (c : Console) (ops : List ConsoleOp) (s : Stream) :
    let hosted := ConsoleOp.performAll idle c { env := env, sink := some (.host h) } ops
    hosted.told s = ConsoleOp.passed s ops
      ∧ ∀ env' sink, Appends env' sink →
          let collected := (ConsoleOp.performAll idle c { env := env', sink := some sink }
            ops).store.written.get s
          collected = (ConsoleOp.passed s ops).flatMap Piece.raw
            ∧ (hosted.told s).flatMap Piece.raw = collected := by
  intro hosted
  have htold : hosted.told s = ConsoleOp.passed s ops := told_run hb env c ops s
  refine ⟨htold, ?_⟩
  intro env' sink ha collected
  have hcollected : collected = (ConsoleOp.passed s ops).flatMap Piece.raw := by
    refine (written_run ha c ops s).trans ?_
    rw [← ConsoleOp.flatMap_script, List.flatMap_assoc]
    exact List.flatMap_congr fun op _ => op.bytesOn_eq_piecesOn s
  exact ⟨hcollected, htold ▸ hcollected.symm⟩

/-- A character in two pieces, one of them behind a text and neither well-formed by
itself, and a line after the end of the run. -/
theorem raw_host_agrees_with_appending_sinks_split_character :
    let h : Host :=
      { write := .returns none, flush := .returns none, exit := .returns none
        writeBytes := some (.returns none) }
    let env : Environment := { tempDir := "/tmp" }
    let ops : List ConsoleOp :=
      [.writeBytes .stdout [0xD0], .print "x", .streamWrite .stdout [0x96], .putChar 'é',
       .terminate 0, .puts "late"]
    let hosted := ConsoleOp.performAll idle .main { env := env, sink := some (.host h) } ops
    let bytes : List UInt8 := [0xD0, 0x78, 0x96, 0xC3, 0xA9]
    (hosted.told .stdout).flatMap Piece.raw = bytes
      ∧ (ConsoleOp.performAll idle .main { env := env, sink := some (.memory none) }
          ops).store.written.get .stdout = bytes
      ∧ (ConsoleOp.performAll idle .main { env := env, sink := some .direct }
          ops).store.written.get .stdout = bytes := by
  intro h env ops hosted bytes
  have hagrees := raw_host_agrees_with_appending_sinks (h := h)
    ⟨⟨by decide, by decide⟩, _, rfl, by decide⟩ env .main ops .stdout
  obtain ⟨hmemory, hhosted⟩ := hagrees.2 env (.memory none) (.memory none)
  obtain ⟨hdirect, -⟩ := hagrees.2 env .direct (.direct rfl)
  have hpassed : (ConsoleOp.passed .stdout ops).flatMap Piece.raw = bytes := by decide
  exact ⟨hhosted.trans (hmemory.trans hpassed), hmemory.trans hpassed, hdirect.trans hpassed⟩

end ScanTrace
