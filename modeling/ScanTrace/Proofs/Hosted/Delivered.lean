/-
What has left a process. Standard output is buffered by lines, so a byte
that was written is not a byte that anybody has read, and a process that is
over before it flushes takes what still waits with it. Two things can be
relied on all the same: what has left is not taken back by anything that is
written later, and what has not left is a part of the last line only, and no
longer than the buffer.

# Two invariants

That what waits belongs to a line that is not ended is kept as a bound by
the number of bytes behind the last line end (`LineBuffer.Fits`), since the
number of those that wait is all that a buffer knows. That nothing is taken
back is a relation between two sessions of a process (`Delivers`). Both are
shown for the requests that a process makes of its sink, and last through
whatever consoles and tracers make of them; no host is called on the way, so
reactions play no part.
-/
import ScanTrace.Program
import ScanTrace.Proofs.Reentry.Machine

namespace ScanTrace

open Session

-- ================================================================== buffers

namespace LineBuffer

theorem unended_suffix (bytes : List UInt8) : unended bytes <:+ bytes := by
  unfold unended
  rw [← List.reverse_prefix, List.reverse_reverse]
  exact List.takeWhile_prefix _

theorem lineEnd_notMem_unended (bytes : List UInt8) : lineEnd ∉ unended bytes := by
  intro h
  have hkept := List.all_eq_true.mp (List.all_takeWhile (l := bytes.reverse)) _
    (List.mem_reverse.mp h)
  exact bne_iff_ne.mp hkept rfl

/-- What is not ended in the last piece is not ended in the whole. -/
theorem length_unended_le_append (written bytes : List UInt8) :
    (unended bytes).length ≤ (unended (written ++ bytes)).length := by
  unfold unended
  rw [List.length_reverse, List.length_reverse, List.reverse_append, List.takeWhile_append]
  split_ifs with hall
  · rw [hall, List.length_append]
    exact Nat.le_add_right _ _
  · exact Nat.le_refl _

/-- A piece without a line end goes on with the line. -/
theorem unended_append (written : List UInt8) {bytes : List UInt8} (h : lineEnd ∉ bytes) :
    unended (written ++ bytes) = unended written ++ bytes := by
  have hall : ∀ b ∈ bytes.reverse, (b != lineEnd) = true := by
    intro b hb
    rw [bne_iff_ne]
    rintro rfl
    exact h (List.mem_reverse.mp hb)
  unfold unended
  rw [List.reverse_append, List.takeWhile_append_of_pos hall, List.reverse_append,
    List.reverse_reverse]

/-- A buffer that is where the bytes written have left it: only a part of the line that is
not ended waits, and there was room for it. -/
structure Fits (b : LineBuffer) (written : List UInt8) : Prop where
  unended : b.waiting ≤ (unended written).length
  capacity : b.waiting ≤ capacity

theorem Fits.flush (b : LineBuffer) (written : List UInt8) : b.flush.Fits written :=
  ⟨Nat.zero_le _, Nat.zero_le _⟩

theorem Fits.write {b : LineBuffer} {written : List UInt8} (h : b.Fits written)
    (bytes : List UInt8) : (b.write bytes).Fits (written ++ bytes) where
  unended := by
    unfold LineBuffer.write
    split_ifs with hends
    · calc (b.flush.hold (LineBuffer.unended bytes).length).waiting
          ≤ 0 + (LineBuffer.unended bytes).length := waiting_hold_le b.flush _
        _ = (LineBuffer.unended bytes).length := Nat.zero_add _
        _ ≤ (LineBuffer.unended (written ++ bytes)).length := length_unended_le_append _ _
    · have hgoes : lineEnd ∉ bytes := fun hmem => hends (List.contains_iff_mem.mpr hmem)
      rw [unended_append written hgoes, List.length_append]
      exact (waiting_hold_le b _).trans (Nat.add_le_add_right h.unended _)
  capacity := waiting_write_le_capacity b bytes

/-- What waits behind the bytes sent is a part of the last line, and there was room for it. -/
theorem Fits.rest {b : LineBuffer} {written : List UInt8} (h : b.Fits written) :
    ∃ rest, written = b.sent written ++ rest ∧ rest.length ≤ LineBuffer.capacity
      ∧ lineEnd ∉ rest := by
  have hlength : (written.drop (written.length - b.waiting)).length ≤ b.waiting := by
    rw [List.length_drop]
    omega
  have hline : written.drop (written.length - b.waiting) <:+ LineBuffer.unended written :=
    List.suffix_of_suffix_length_le (List.drop_suffix _ _) (unended_suffix written)
      (hlength.trans h.unended)
  refine ⟨_, (List.take_append_drop _ _).symm, hlength.trans h.capacity, ?_⟩
  exact fun hmem => lineEnd_notMem_unended written (hline.subset hmem)

end LineBuffer

-- ================================================================ processes

/-- A process whose buffer is where its output has left it. -/
structure Session.Buffered (st : Session) : Prop where
  sink : st.sink = some .direct
  fits : st.store.buffer.Fits (st.store.written.get .stdout)

/-- Operations on the sink, on consoles and on tracers, one after another. -/
def Use.performAll (react : React) (st : Session) (us : List Use) : Session :=
  us.foldl (fun st u => (u.perform react st).2) st

/-- What a process goes on to: a process again, from which nothing has been taken back. -/
structure Delivers (st st' : Session) : Prop where
  buffered : st'.Buffered
  grows : ∀ s, st.delivered s <+: st'.delivered s

namespace Delivers

variable {st st' st'' : Session}

theorem refl (h : st.Buffered) : Delivers st st := ⟨h, fun _ => List.prefix_rfl⟩

theorem trans (h : Delivers st st') (h' : Delivers st' st'') : Delivers st st'' :=
  ⟨h'.buffered, fun s => (h.grows s).trans (h'.grows s)⟩

/-- Nothing leaves a process that writes nothing and sends nothing. -/
theorem same (h : st.Buffered) (henv : st'.env = st.env) (hsink : st'.sink = st.sink)
    (hwritten : st'.store.written = st.store.written)
    (hbuffer : st'.store.buffer = st.store.buffer) : Delivers st st' := by
  refine ⟨⟨hsink.trans h.sink, ?_⟩, ?_⟩
  · rw [hbuffer, hwritten]
    exact h.fits
  · intro s
    unfold Session.delivered
    rw [henv, hwritten, hbuffer]

/-- Standard output grows, whether the process flushes it at its end or not, if what was
written grows and what was sent grows. -/
theorem grows_stdout (henv : st'.env = st.env)
    (hwritten : st.store.written.stdout <+: st'.store.written.stdout)
    (hsent : st.store.buffer.sent st.store.written.stdout
      <+: st'.store.buffer.sent st'.store.written.stdout) :
    st.delivered .stdout <+: st'.delivered .stdout := by
  show (if st.env.flushesAtEnd then _ else _) <+: (if st'.env.flushesAtEnd then _ else _)
  rw [henv]
  split_ifs
  · exact hwritten
  · exact hsent

theorem flushDirect (h : st.Buffered) (r : Stream) : Delivers st (st.flushDirect r) := by
  cases r with
  | stderr => exact refl h
  | stdout =>
    refine ⟨⟨h.sink, LineBuffer.Fits.flush st.store.buffer _⟩, ?_⟩
    intro s
    cases s with
    | stderr => exact List.prefix_rfl
    | stdout =>
      refine grows_stdout rfl List.prefix_rfl ?_
      show _ <+: st.store.buffer.flush.sent st.store.written.stdout
      rw [LineBuffer.sent_flush]
      exact List.take_prefix _ _

theorem emitDirect (h : st.Buffered) (r : Stream) (bytes : List UInt8) :
    Delivers st (st.emitDirect r bytes) := by
  unfold Session.emitDirect
  split_ifs
  · exact refl h
  · cases r with
    | stderr =>
      refine ⟨⟨h.sink, h.fits⟩, ?_⟩
      intro s
      cases s with
      | stdout => exact List.prefix_rfl
      | stderr => exact List.prefix_append _ _
    | stdout =>
      refine ⟨⟨h.sink, h.fits.write bytes⟩, ?_⟩
      intro s
      cases s with
      | stderr => exact List.prefix_rfl
      | stdout =>
        exact grows_stdout rfl (List.prefix_append _ _) (LineBuffer.sent_prefix_sent_write ..)

theorem request (react : React) (h : st.Buffered) (op : SinkOp) :
    Delivers st (op.perform react st).2 := by
  rw [SinkOp.perform_directActs h.sink]
  cases op with
  | write r text =>
    have hformed : Delivers st (st.format text) := same h rfl rfl rfl rfl
    exact hformed.trans (emitDirect hformed.buffered r _)
  | writeBytes r bytes => exact emitDirect h r bytes
  | putChar r c => exact emitDirect h r _
  | flush r => exact flushDirect h r
  | terminate code =>
    have hout := flushDirect h .stdout
    have herr := hout.trans (flushDirect hout.buffered .stderr)
    exact herr.trans (same herr.buffered rfl rfl rfl rfl)
  | tempDir => exact refl h

/-- What has left a process is not taken back by any request, so by nothing that consoles
and tracers do. -/
theorem lasts (react : React) : Lasts react (Delivers st) where
  request h op := h.trans (request react h.buffered op)
  markSealed h _ := h.trans (same h.buffered rfl rfl rfl rfl)
  note h _ := h.trans (same h.buffered rfl rfl rfl rfl)
  format h _ := h.trans (same h.buffered rfl rfl rfl rfl)

theorem performAll (react : React) (h : st.Buffered) (us : List Use) :
    Delivers st (Use.performAll react st us) := by
  induction us generalizing st with
  | nil => exact refl h
  | cons u us ih =>
    have hu := (lasts react).use (refl h) u
    exact hu.trans (ih hu.buffered)

end Delivers

/-- What a process has written is what has left it and a rest that waits in front of standard
output. -/
theorem Session.Buffered.rest {st : Session} (h : st.Buffered) (s : Stream) :
    ∃ rest, st.store.written.get s = st.delivered s ++ rest
      ∧ rest.length ≤ LineBuffer.capacity ∧ LineBuffer.lineEnd ∉ rest := by
  have hall : ∃ rest, st.store.written.get s = st.store.written.get s ++ rest
      ∧ rest.length ≤ LineBuffer.capacity ∧ LineBuffer.lineEnd ∉ rest :=
    ⟨[], (List.append_nil _).symm, Nat.zero_le _, List.not_mem_nil⟩
  cases s with
  | stderr => exact hall
  | stdout =>
    unfold Session.delivered
    dsimp only
    split_ifs
    · exact hall
    · exact h.fits.rest

/-- Behind a flush of a stream nothing waits. -/
theorem Session.Buffered.delivered_flush {st : Session} (h : st.Buffered) (react : React)
    (s : Stream) :
    (SinkOp.perform react st (.flush s)).2.delivered s = st.store.written.get s := by
  rw [SinkOp.perform_directActs h.sink]
  cases s with
  | stderr => rfl
  | stdout =>
    show (if st.env.flushesAtEnd then st.store.written.stdout
      else st.store.buffer.flush.sent st.store.written.stdout) = _
    rw [LineBuffer.sent_flush, ite_self]
    rfl

/-- What has left a process by a stream is not taken back by any output that follows,
through the sink, through consoles or through tracers. What has not left it comes last of
what was written, holds no line end and is no longer than the buffer; and a flush of the
stream sends it. -/
theorem delivered_by_lines (env : Environment) (react : React) (past later : List Use)
    (s : Stream) :
    let st := Use.performAll react { env, sink := some .direct } past
    let after := Use.performAll react st later
    st.delivered s <+: after.delivered s
      ∧ (∃ rest, after.store.written.get s = after.delivered s ++ rest
          ∧ rest.length ≤ LineBuffer.capacity ∧ LineBuffer.lineEnd ∉ rest)
      ∧ (SinkOp.perform react after (.flush s)).2.delivered s = after.store.written.get s := by
  intro st after
  have hfresh : Session.Buffered { env, sink := some .direct } :=
    ⟨rfl, LineBuffer.Fits.flush {} []⟩
  have hpast := Delivers.performAll react hfresh past
  have hlater := Delivers.performAll react hpast.buffered later
  exact ⟨hlater.grows s, hlater.buffered.rest s, hlater.buffered.delivered_flush react s⟩

-- A process that does not flush at its end takes an unfinished line with it.
example :
    let env : Environment := { tempDir := "/tmp", flushesAtEnd := false }
    (Use.performAll idle { env, sink := some .direct }
      [.console .main (.puts "one"), .console .main (.print "two")]).delivered .stdout
        = bytesOf "one\n" := by decide

end ScanTrace
