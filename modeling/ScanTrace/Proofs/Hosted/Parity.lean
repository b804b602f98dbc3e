/-
The same run on two sinks: a host that takes text only and does not call
back, and a sink that appends what it is given. What the host heard is
compared with the text of the bytes that the other sink collected.

The host heard the pieces of the transcript read apart (Transcript.lean), the
other sink has them joined (Collected.lean), and a run that is ended leaves
no run of bytes open. So the two agree exactly if the transcript is not
severed (Severed.lean).

# Where they differ

A text that is put between the two halves of a character parts them for the
host, as it should, and in the joined bytes too, unless the text is empty.
An empty text is written like any other: what is held is released for it,
although nothing stands between the two halves then
(`empty_text_breaks_parity`). A run that writes no empty text is not severed.
-/
import ScanTrace.Proofs.Hosted.Collected
import ScanTrace.Proofs.Hosted.Severed

namespace ScanTrace

open Session

namespace Transcript

-- ============================================================ joined pieces

/-- All bytes of a transcript, joined. -/
def raw (t : Transcript) : List UInt8 := t.ended.flatMap Piece.raw ++ t.opened

theorem raw_say (t : Transcript) (cs : List Char) :
    (t.say cs).raw = t.raw ++ Utf8.encode cs := by
  simp [raw, say, Piece.raw]

theorem raw_add (s : Stream) (t : Transcript) (op : SinkOp) :
    (t.add s op).raw = t.raw ++ op.bytesOn s := by
  cases op with
  | write r text =>
    simp only [add, SinkOp.bytesOn]
    split_ifs
    · exact raw_say ..
    · rw [List.append_nil]
  | putChar r c =>
    simp only [add, SinkOp.bytesOn]
    split_ifs
    · exact raw_say ..
    · rw [List.append_nil]
  | writeBytes r bytes =>
    simp only [add, SinkOp.bytesOn]
    split_ifs
    · simp [raw]
    · rw [List.append_nil]
  | flush r => exact (List.append_nil _).symm
  | terminate code => simp [raw, add, close, Piece.raw, SinkOp.bytesOn]
  | tempDir => exact (List.append_nil _).symm

theorem raw_foldl_add (s : Stream) (t : Transcript) (ops : List SinkOp) :
    (ops.foldl (add s) t).raw = t.raw ++ ops.flatMap (·.bytesOn s) := by
  induction ops generalizing t with
  | nil => exact (List.append_nil _).symm
  | cons op ops ih =>
    rw [List.foldl_cons, ih, raw_add, List.flatMap_cons, List.append_assoc]

-- ============================================================= whole pieces

/-- The pieces so far are not severed, and none of them can be severed from what
follows: they do not break off in the middle of a sequence. -/
structure Whole (t : Transcript) : Prop where
  not_severed : ¬ Severed t.ended
  unfinished : Utf8.unfinished (t.ended.flatMap Piece.raw) = []

theorem whole_nil : Whole {} where
  not_severed := by
    rintro ⟨before, b, rest, after, heq, -⟩
    exact absurd heq (by simp)
  unfinished := Utf8.unfinished_nil

namespace Whole

variable {t : Transcript}

theorem not_severed_bytes (hw : t.Whole) : ¬ Severed (t.ended ++ [.bytes t.opened]) := by
  rw [severed_concat]
  rintro (hs | ⟨b, rest, -, hb⟩)
  · exact hw.not_severed hs
  · rw [hw.unfinished] at hb
    cases hb

/-- A text that is not empty leaves the pieces whole. -/
theorem say (hw : t.Whole) {cs : List Char} (hcs : cs ≠ []) : (t.say cs).Whole := by
  have hended : (t.say cs).ended = t.ended ++ [.bytes t.opened] ++ [.text cs] := by
    simp [Transcript.say]
  refine ⟨?_, ?_⟩
  · rw [hended, severed_concat]
    rintro (hs | ⟨b, rest, hp, -⟩)
    · exact hw.not_severed_bytes hs
    · cases hp
  · rw [hended, List.flatMap_append, List.flatMap_singleton]
    exact (Utf8.lossy_append_encode _ hcs).2

theorem add (hw : t.Whole) (s : Stream) {op : SinkOp} (hend : ∀ k, op ≠ .terminate k)
    (hempty : ∀ r, op ≠ .write r "") : (t.add s op).Whole := by
  cases op with
  | write r text =>
    have htext : text.toList ≠ [] := fun h => hempty r (by rw [String.toList_eq_nil_iff.mp h])
    simp only [Transcript.add]
    split_ifs
    · exact hw.say htext
    · exact hw
  | putChar r c =>
    simp only [Transcript.add]
    split_ifs
    · exact hw.say (List.cons_ne_nil c [])
    · exact hw
  | writeBytes r bytes =>
    simp only [Transcript.add]
    split_ifs
    · exact ⟨hw.not_severed, hw.unfinished⟩
    · exact hw
  | flush r => exact hw
  | terminate k => exact absurd rfl (hend k)
  | tempDir => exact hw

end Whole

end Transcript

-- ================================================================== parity

/-- A run that is ended and writes no empty text is not severed. -/
theorem not_severed_of_no_empty_text {ops : List ConsoleOp}
    (hempty : ∀ o ∈ ops, ∀ r, SinkOp.write r "" ∉ o.requests) (code : Int32) (s : Stream) :
    ¬ Severed (Transcript.of s (ConsoleOp.script false (ops ++ [.terminate code]))).ended := by
  refine ConsoleOp.foldl_script_ended (I := Transcript.Whole) (P := fun t => ¬ Severed t.ended)
    (fun _ => rfl) (fun _ _ hw => hw) ?_ ?_ Transcript.whole_nil
  · intro o ho hends op hop t hw
    refine hw.add s ?_ ?_
    · rintro k rfl
      exact ConsoleOp.terminate_notMem_requests hends k hop
    · rintro r rfl
      exact hempty o ho r hop
  · intro t k hw
    exact hw.not_severed_bytes

/-- After a run that is ended no run of bytes is open. -/
theorem opened_of_ended (ops : List ConsoleOp) (code : Int32) (s : Stream) :
    (Transcript.of s (ConsoleOp.script false (ops ++ [.terminate code]))).opened = [] :=
  ConsoleOp.foldl_script_ended (I := fun _ => True)
    (P := fun t : Transcript => t.opened = [])
    (fun _ => rfl) (fun _ _ _ => trivial) (fun _ _ _ _ _ _ _ => trivial)
    (fun _ _ _ => rfl) trivial

/-- A text-only host hears the text of what another sink collects in the same
run exactly if no character is severed in it. An empty text is needed to sever
one; and where none is severed, well-formed bytes reach the host unchanged. -/
theorem text_only_host_parity_iff {h : Host} (ht : h.textOnly = true) (hc : h.Callable)
    {sink : Sink} {env' : Environment} (ha : Appends env' sink) (env : Environment)
    (c : Console) (ops : List ConsoleOp) (code : Int32) (s : Stream) :
    let ended := ops ++ [.terminate code]
    let heard := (ConsoleOp.performAll idle c { env := env, sink := some (.host h) } ended).heard s
    let collected :=
      (ConsoleOp.performAll idle c { env := env', sink := some sink } ended).delivered s
    let pieces := (Transcript.of s (ConsoleOp.script false ended)).ended
    (heard = Utf8.lossy collected ↔ ¬ Severed pieces)
      ∧ (Severed pieces → ∃ o ∈ ops, ∃ r, SinkOp.write r "" ∈ o.requests)
      ∧ (¬ Severed pieces → ∀ text, collected = Utf8.encode text →
          Utf8.encode heard = collected) := by
  intro ended heard collected pieces
  have hopened : (Transcript.of s (ConsoleOp.script false ended)).opened = [] :=
    opened_of_ended ops code s
  have hheard : heard = pieces.flatMap Piece.reading := by
    refine (heard_run ht hc env c ended s).trans ?_
    unfold Transcript.told
    rw [hopened]
    simp [Utf8.settled, Utf8.lossy_nil, pieces]
  have hcollected : collected = pieces.flatMap Piece.raw := by
    have hraw := Transcript.raw_foldl_add s {} (ConsoleOp.script false ended)
    have hpieces : Transcript.raw (Transcript.of s (ConsoleOp.script false ended))
        = pieces.flatMap Piece.raw := by
      unfold Transcript.raw
      rw [hopened, List.append_nil]
    refine (delivered_of_ended ha c ops code s).trans ?_
    rw [written_run ha, ← hpieces]
    exact hraw.symm
  have hiff : heard = Utf8.lossy collected ↔ ¬ Severed pieces := by
    rw [hheard, hcollected, eq_comm]
    exact lossy_eq_reading_iff pieces
  refine ⟨hiff, ?_, ?_⟩
  · intro hs
    by_contra hno
    push Not at hno
    exact not_severed_of_no_empty_text hno code s hs
  · intro hs text htext
    rw [hiff.mpr hs, htext, Utf8.lossy_encode]

/-- A character in two pieces and a text behind it. -/
theorem text_only_host_parity_split_character :
    let h : Host := { write := .returns none, flush := .returns none, exit := .returns none }
    let env : Environment := { tempDir := "/tmp" }
    let ended : List ConsoleOp :=
      [.writeBytes .stdout [0xD0], .writeBytes .stdout [0x96], .print "!"] ++ [.terminate 0]
    let heard := (ConsoleOp.performAll idle .main { env, sink := some (.host h) } ended).heard
      .stdout
    let collected := (ConsoleOp.performAll idle .main { env, sink := some .direct }
      ended).delivered .stdout
    heard = Utf8.lossy collected ∧ collected = [0xD0, 0x96, 0x21] := by
  intro h env ended heard collected
  have hparity := text_only_host_parity_iff (show h.textOnly = true from rfl)
    ⟨by decide, by decide⟩ (Appends.direct (show env.full = none from rfl)) env .main
    [.writeBytes .stdout [0xD0], .writeBytes .stdout [0x96], .print "!"] 0 .stdout
  refine ⟨hparity.1.mpr ?_, by decide⟩
  refine not_severed_of_no_empty_text ?_ 0 .stdout
  simp [ConsoleOp.requests]

/-- An empty text between the two halves of a character: the process writes the
character, and the host is told of two damaged ones. -/
theorem empty_text_breaks_parity :
    let h : Host := { write := .returns none, flush := .returns none, exit := .returns none }
    let env : Environment := { tempDir := "/tmp" }
    let ended : List ConsoleOp :=
      [.writeBytes .stdout [0xD0], .print "", .writeBytes .stdout [0x96]] ++ [.terminate 0]
    let heard := (ConsoleOp.performAll idle .main { env, sink := some (.host h) } ended).heard
      .stdout
    let collected := (ConsoleOp.performAll idle .main { env, sink := some .direct }
      ended).delivered .stdout
    heard = ['\uFFFD', '\uFFFD'] ∧ collected = Utf8.encode ['Ж']
      ∧ Utf8.lossy collected = ['Ж'] := by
  intro h env ended heard collected
  have hheard := heard_run (show h.textOnly = true from rfl) ⟨by decide, by decide⟩ env .main
    ended .stdout
  have hcollected : collected = Utf8.encode ['Ж'] := by decide
  refine ⟨hheard.trans ?_, hcollected, ?_⟩
  · show [Piece.bytes [0xD0], .text [], .bytes [0x96]].flatMap Piece.reading
      ++ Utf8.settled [] = _
    rw [← Utf8.drain_fst]
    simp only [List.flatMap_cons, List.flatMap_nil, Piece.reading, Utf8.lossy_eq_drain]
    decide
  · rw [hcollected]
    exact Utf8.lossy_encode _

end ScanTrace
