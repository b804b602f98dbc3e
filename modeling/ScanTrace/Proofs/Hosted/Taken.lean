/-
Output in memory that is taken while it grows. Whoever shows the output of a
run drains a stream whenever it suits, is given the text of what the stream
has collected so far, and the stream starts anew. What was taken and what is
left are the bytes of the stream cut into portions (`Portions`), and no byte
is lost or doubled.

Each portion is made into text by itself, however, and nothing is held back
for the next. So the texts of the portions, joined, are the text of all the
bytes exactly if no drain parts a sequence from the bytes that go on with it
(Severed.lean), as none does that falls between characters
(`not_severed_of_whole`). One that falls inside a character makes replacement
characters of both halves.

The proof goes along the uses of the sink: memory has collected the portion
that is left, and the texts given so far are those of the portions taken
(`MemoryUse.step_portions`).
-/
import ScanTrace.Proofs.Hosted.Collected
import ScanTrace.Proofs.Hosted.Severed

namespace ScanTrace

open Session

-- ============================================================ uses of memory

/-- What is done about a sink in memory: an operation on it, or a drain of a stream. -/
inductive MemoryUse where
  | operate (op : SinkOp)
  | drain (s : Stream)

namespace MemoryUse

/-- The step of a program that a use is. -/
def step : MemoryUse → Op
  | .operate op => .sink op
  | .drain s => .take s

/-- The text that a drain of the stream is answered. -/
def textOf (s : Stream) : MemoryUse → Reply → List Char
  | .drain r, .text text => if r = s then text.toList else []
  | _, _ => []

theorem textOf_drain (s r : Stream) (text : List Char) :
    textOf s (.drain r) (.text (String.ofList text)) = if r = s then text else [] := by
  dsimp only [textOf]
  rw [String.toList_ofList]

/-- The bytes that a use writes to a stream. -/
def bytesOn (s : Stream) : MemoryUse → List UInt8
  | .operate op => op.bytesOn s
  | .drain _ => []

/-- Uses, one after another: the texts taken from a stream, joined, and the session
after them. -/
def performAll (react : React) (s : Stream) (st : Session) : List MemoryUse → List Char × Session
  | [] => ([], st)
  | use :: rest =>
    let answered := use.step.perform react st
    let later := performAll react s answered.2 rest
    (use.textOf s answered.1 ++ later.1, later.2)

end MemoryUse

-- ================================================================= portions

/-- What a stream has collected, cut where it was drained: the portions that were
taken, and what is left. -/
structure Portions where
  taken : List (List UInt8) := []
  left : List UInt8 := []

namespace Portions

/-- The portions after a use, as far as it concerns the stream. -/
def add (s : Stream) (p : Portions) : MemoryUse → Portions
  | .operate op => { p with left := p.left ++ op.bytesOn s }
  | .drain r => if r = s then { taken := p.taken ++ [p.left] } else p

theorem add_drain (s r : Stream) (p : Portions) :
    p.add s (.drain r) = if r = s then { taken := p.taken ++ [p.left] } else p := rfl

/-- The portions of a stream that begins with some bytes. -/
def of (s : Stream) (before : List UInt8) (uses : List MemoryUse) : Portions :=
  uses.foldl (add s) { left := before }

/-- The portions as pieces of output, each read by itself. -/
def pieces (p : Portions) : List Piece := (p.taken ++ [p.left]).map .bytes

theorem flatMap_raw (parts : List (List UInt8)) :
    (parts.map Piece.bytes).flatMap Piece.raw = parts.flatten := by
  rw [List.flatMap_map]
  exact List.flatMap_id'

/-- All bytes of the portions. -/
def raw (p : Portions) : List UInt8 := p.taken.flatten ++ p.left

theorem flatMap_raw_pieces (p : Portions) : p.pieces.flatMap Piece.raw = p.raw := by
  rw [pieces, flatMap_raw, List.flatten_append, List.flatten_singleton]
  rfl

/-- Portions read apart. -/
theorem flatMap_reading_pieces (p : Portions) :
    p.pieces.flatMap Piece.reading = p.taken.flatMap Utf8.lossy ++ Utf8.lossy p.left := by
  unfold pieces
  rw [List.flatMap_map, List.flatMap_append, List.flatMap_singleton]
  rfl

theorem raw_add (s : Stream) (p : Portions) (use : MemoryUse) :
    (p.add s use).raw = p.raw ++ use.bytesOn s := by
  cases use with
  | operate op => exact (List.append_assoc ..).symm
  | drain r =>
    rw [add_drain]
    dsimp only [MemoryUse.bytesOn]
    split_ifs
    · simp [raw]
    · rw [List.append_nil]

/-- No byte is lost or doubled. -/
theorem raw_foldl_add (s : Stream) (p : Portions) (uses : List MemoryUse) :
    (uses.foldl (add s) p).raw = p.raw ++ uses.flatMap (·.bytesOn s) := by
  induction uses generalizing p with
  | nil => exact (List.append_nil _).symm
  | cons use uses ih => rw [List.foldl_cons, ih, raw_add, List.flatMap_cons, List.append_assoc]

/-- Portions that end between sequences end between sequences when they are joined. -/
theorem unfinished_flatten {parts : List (List UInt8)}
    (h : ∀ part ∈ parts, Utf8.unfinished part = []) : Utf8.unfinished parts.flatten = [] := by
  induction parts with
  | nil => exact Utf8.unfinished_nil
  | cons part parts ih =>
    obtain ⟨hpart, hparts⟩ := List.forall_mem_cons.mp h
    rw [List.flatten_cons, Utf8.unfinished_append, hpart, List.nil_append, ih hparts]

/-- Where every portion that was taken ends between sequences, nothing is severed. -/
theorem not_severed_of_whole {parts : List (List UInt8)}
    (h : ∀ part ∈ parts, Utf8.unfinished part = []) (last : List UInt8) :
    ¬ Severed ((parts ++ [last]).map .bytes) := by
  induction parts using List.reverseRecOn generalizing last with
  | nil =>
    rw [List.map_append, List.map_singleton, severed_concat]
    rintro (⟨before, b, rest, after, heq, -⟩ | ⟨b, rest, -, hb⟩)
    · exact absurd heq (by simp)
    · rw [List.map_nil, List.flatMap_nil, Utf8.unfinished_nil] at hb
      cases hb
  | append_singleton parts part ih =>
    rw [List.map_append, List.map_singleton, severed_concat]
    rintro (hs | ⟨b, rest, -, hb⟩)
    · exact ih (fun part hpart => h part (List.mem_append_left _ hpart)) part hs
    · rw [flatMap_raw, unfinished_flatten h] at hb
      cases hb

end Portions

-- ================================================================== memory

section Memory

variable {dir : Option String} {s : Stream} {st : Session}

/-- There is no host that could react to an operation on memory. -/
theorem SinkOp.perform_memory (hsink : st.sink = some (.memory dir)) (react : React)
    (op : SinkOp) : (op.perform react st).2 = (op.perform idle st).2 := by
  rw [perform_memoryActs hsink, perform_memoryActs hsink]
  cases op <;> rfl

theorem MemoryUse.step_operate (hsink : st.sink = some (.memory dir)) (react : React)
    (op : SinkOp) :
    let after := (step (.operate op)).perform react st
    after.2.sink = some (.memory dir)
      ∧ after.2.store.written.get s = st.store.written.get s ++ op.bytesOn s := by
  intro after
  have hafter : after.2 = (op.perform idle st).2 := by
    rw [← SinkOp.perform_memory hsink react]
    show (st.needingSink fun st => op.perform react st).2 = _
    unfold needingSink
    rw [hsink]
    rfl
  have hstart : Collects s st.env st (st.store.written.get s) := ⟨rfl, rfl⟩
  rw [hafter]
  refine ⟨(Keeps.perform st op).sink.trans hsink, ?_⟩
  exact ((tracks_memory dir).perform hsink hstart op).written

theorem MemoryUse.step_drain (hsink : st.sink = some (.memory dir)) (react : React) (r : Stream) :
    (step (.drain r)).perform react st
      = (.text (String.ofList (Utf8.lossy (st.store.written.get r))),
         { st with store := { st.store with written := st.store.written.set r [] } }) := by
  show st.needingSink (·.take r) = _
  simp only [needingSink, Session.take, hsink, Option.isSome_some, if_true]

/-- A use of memory gives the text of the portion that it takes, if it takes one, and
leaves the portion that is left. -/
theorem MemoryUse.step_portions (hsink : st.sink = some (.memory dir)) (react : React)
    {p : Portions} (hleft : st.store.written.get s = p.left) (use : MemoryUse) :
    let after := use.step.perform react st
    after.2.sink = some (.memory dir)
      ∧ p.taken.flatMap Utf8.lossy ++ use.textOf s after.1
          = (p.add s use).taken.flatMap Utf8.lossy
      ∧ after.2.store.written.get s = (p.add s use).left := by
  intro after
  cases use with
  | operate op =>
    obtain ⟨hsink', hwritten⟩ := step_operate (s := s) hsink react op
    refine ⟨hsink', List.append_nil _, hwritten.trans ?_⟩
    rw [hleft]
    rfl
  | drain r =>
    have hafter : after = _ := step_drain hsink react r
    rw [hafter, Portions.add_drain, textOf_drain]
    refine ⟨hsink, ?_⟩
    by_cases hr : r = s
    · subst hr
      rw [if_pos rfl, if_pos rfl]
      refine ⟨?_, PerStream.get_set_self ..⟩
      rw [hleft, List.flatMap_append, List.flatMap_singleton]
    · rw [if_neg hr, if_neg hr]
      refine ⟨List.append_nil _, ?_⟩
      exact (PerStream.get_set_of_ne _ _ (Ne.symm hr)).trans hleft

/-- Memory goes along with the portions of a stream. -/
theorem MemoryUse.performAll_portions (hsink : st.sink = some (.memory dir)) (react : React)
    {p : Portions} (hleft : st.store.written.get s = p.left) (uses : List MemoryUse) :
    let done := performAll react s st uses
    let after := uses.foldl (Portions.add s) p
    p.taken.flatMap Utf8.lossy ++ done.1 = after.taken.flatMap Utf8.lossy
      ∧ done.2.store.written.get s = after.left := by
  induction uses generalizing st p with
  | nil => exact ⟨List.append_nil _, hleft⟩
  | cons use uses ih =>
    obtain ⟨hsink', htext, hleft'⟩ := step_portions hsink react hleft use
    obtain ⟨htexts, hwritten⟩ := ih hsink' hleft'
    refine ⟨?_, hwritten⟩
    show _ ++ (_ ++ _) = _
    rw [← List.append_assoc, htext]
    exact htexts

/-- Draining memory gives the text of each portion and leaves the last, and every byte of
the stream is in one of them. The texts, joined, are the text of all the bytes exactly if no
drain parts a sequence from the bytes that go on with it; drains between sequences never
do. -/
theorem draining_memory_loses_nothing_iff (hsink : st.sink = some (.memory dir))
    (react : React) (s : Stream) (uses : List MemoryUse) :
    let done := MemoryUse.performAll react s st uses
    let parts := Portions.of s (st.store.written.get s) uses
    let left := done.2.store.written.get s
    let all := st.store.written.get s ++ uses.flatMap (·.bytesOn s)
    done.1 = parts.taken.flatMap Utf8.lossy
      ∧ left = parts.left
      ∧ parts.taken.flatten ++ left = all
      ∧ (done.1 ++ Utf8.lossy left = Utf8.lossy all ↔ ¬ Severed parts.pieces)
      ∧ ((∀ part ∈ parts.taken, Utf8.unfinished part = []) →
          done.1 ++ Utf8.lossy left = Utf8.lossy all) := by
  intro done parts left all
  obtain ⟨htexts, hleft⟩ : done.1 = parts.taken.flatMap Utf8.lossy ∧ left = parts.left :=
    MemoryUse.performAll_portions (p := { left := st.store.written.get s }) hsink react rfl uses
  have hraw : parts.raw = all := Portions.raw_foldl_add s _ uses
  have hall : parts.taken.flatten ++ left = all := by
    rw [hleft, ← hraw]
    rfl
  -- reading portion by portion is reading the pieces apart
  have hiff : done.1 ++ Utf8.lossy left = Utf8.lossy all ↔ ¬ Severed parts.pieces := by
    rw [← lossy_eq_reading_iff, Portions.flatMap_raw_pieces, Portions.flatMap_reading_pieces,
      hraw, ← hleft, ← htexts, eq_comm]
  refine ⟨htexts, hleft, hall, hiff, ?_⟩
  intro hwhole
  exact hiff.mpr (Portions.not_severed_of_whole hwhole parts.left)

end Memory

theorem draining_memory_between_characters :
    let st : Session := { env := { tempDir := "/tmp" }, sink := some (.memory none) }
    let uses : List MemoryUse :=
      [.operate (.writeBytes .stdout [0xD0]), .drain .stderr, .operate (.write .stderr "x"),
       .operate (.writeBytes .stdout [0x96]), .drain .stdout, .operate (.putChar .stdout '!')]
    let done := MemoryUse.performAll idle .stdout st uses
    st.sink = some (.memory none)
      ∧ (∀ part ∈ (Portions.of .stdout [] uses).taken, Utf8.unfinished part = [])
      ∧ done.1 ++ Utf8.lossy (done.2.store.written.get .stdout) = ['Ж', '!'] := by
  intro st uses done
  have hwhole : ∀ part ∈ (Portions.of .stdout [] uses).taken, Utf8.unfinished part = [] := by
    decide +kernel
  obtain ⟨-, -, -, -, hkept⟩ := draining_memory_loses_nothing_iff
    (show st.sink = some (.memory none) from rfl) idle .stdout uses
  refine ⟨rfl, hwhole, (hkept hwhole).trans ?_⟩
  decide +kernel

/-- A drain between the two bytes of a character: replacement characters are taken and
left, where the bytes are one character. -/
theorem drain_inside_character_loses_it :
    let st : Session := { env := { tempDir := "/tmp" }, sink := some (.memory none) }
    let uses : List MemoryUse :=
      [.operate (.writeBytes .stdout [0xD0]), .drain .stdout,
       .operate (.writeBytes .stdout [0x96])]
    let done := MemoryUse.performAll idle .stdout st uses
    let all := uses.flatMap (·.bytesOn .stdout)
    done.1 = ['\uFFFD'] ∧ Utf8.lossy (done.2.store.written.get .stdout) = ['\uFFFD']
      ∧ Utf8.lossy all = ['Ж']
      ∧ done.1 ++ Utf8.lossy (done.2.store.written.get .stdout) ≠ Utf8.lossy all := by
  decide +kernel

end ScanTrace
