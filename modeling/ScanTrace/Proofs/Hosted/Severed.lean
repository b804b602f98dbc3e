/-
Pieces read apart and pieces read together. A host that takes text only is
told each run of bytes as a text of its own, whereas a sink that collects
bytes joins them all and leaves the reading to whoever takes them. The two
agree unless a character was cut in two: bytes break off inside a sequence,
and the bytes of a later piece, with nothing in between, go on with it
(`Severed`).

# Why only then

A cut where the next byte does not go on with anything changes no reading
(`Utf8.lossy_cut`), and that is the whole argument for one direction. For
the other, lengths are enough. Joining bytes never makes their text longer,
and it makes the text shorter wherever a byte goes on with something: read
apart, that byte is a replacement character and so is what it continues;
read together, the two are at most one character.
-/
import ScanTrace.Proofs.Hosted.Transcript
import ScanTrace.Proofs.Utf8.Encoding

namespace ScanTrace

namespace Utf8

-- ================================================================= lengths

theorem length_lossy_cons_of_isTail {b : UInt8} (h : isTail b = true) (rest : List UInt8) :
    (lossy (b :: rest)).length = 1 + (lossy rest).length := by
  rw [lossy_start, start_of_isTail h]
  simp [Nat.add_comm]

/-- Behind the beginning of a sequence a byte list costs at most what the two cost
apart, and less if its first byte goes on with the sequence. -/
theorem length_lossy_begins_append {held : List UInt8} (h : Begins held) (ys : List UInt8) :
    (lossy (held ++ ys)).length ≤ (lossy held).length + (lossy ys).length
      ∧ ∀ b rest, ys = b :: rest → continues held b = true →
          (lossy (held ++ ys)).length < (lossy held).length + (lossy ys).length := by
  induction ys generalizing held with
  | nil =>
    refine ⟨?_, ?_⟩
    · rw [List.append_nil]
      exact Nat.le_add_right _ _
    · intro b rest hys
      cases hys
  | cons b rest ih =>
    cases hb : continues held b with
    | false =>
      have hcut : continues (unfinished held) b = false := by rwa [unfinished_of_begins h]
      refine ⟨?_, ?_⟩
      · rw [lossy_cut hcut, List.length_append]
      · intro b' rest' hys hb'
        cases hys
        rw [hb] at hb'
        cases hb'
    | true =>
      -- the continuing byte costs nothing when joined, and one character apart
      have hshort : (lossy (held ++ b :: rest)).length ≤ 1 + (lossy rest).length := by
        cases held with
        | nil => cases hb
        | cons lead more =>
          rw [lossy_step h]
          by_cases hw : more.length + 2 = width lead
          · rw [step_of_completes hb hw]
            simp [Nat.add_comm]
          · have hnext := begins_of_continues h hb hw
            have hle := (ih hnext).1
            rw [lossy_of_begins hnext] at hle
            rw [step_of_continues hb hw]
            simpa using hle
      have hapart := length_lossy_cons_of_isTail (isTail_of_continues hb) rest
      have hheld : (lossy held).length = 1 := by
        rw [lossy_of_begins h]
        cases held with
        | nil => cases hb
        | cons lead more => rfl
      refine ⟨by omega, ?_⟩
      intro b' rest' _ _
      omega

/-- Joining bytes never makes their text longer. -/
theorem length_lossy_append_le (xs ys : List UInt8) :
    (lossy (xs ++ ys)).length ≤ (lossy xs).length + (lossy ys).length := by
  have h := (length_lossy_begins_append (begins_unfinished xs) ys).1
  rw [lossy_append, lossy_eq_settled xs, List.length_append, List.length_append]
  omega

theorem length_lossy_append_lt {xs : List UInt8} {b : UInt8}
    (hb : continues (unfinished xs) b = true) (rest : List UInt8) :
    (lossy (xs ++ b :: rest)).length < (lossy xs).length + (lossy (b :: rest)).length := by
  have h := (length_lossy_begins_append (begins_unfinished xs) (b :: rest)).2 b rest rfl hb
  rw [lossy_append, lossy_eq_settled xs, List.length_append, List.length_append]
  omega

end Utf8

-- ================================================================== pieces

/-- The bytes of a piece. -/
def Piece.raw : Piece → List UInt8
  | .bytes run => run
  | .text cs => Utf8.encode cs

theorem Piece.lossy_raw (p : Piece) : Utf8.lossy p.raw = p.reading := by
  cases p with
  | bytes run => rfl
  | text cs => exact Utf8.lossy_encode cs

/-- Somewhere a run of bytes goes on with a sequence that the pieces before it,
taken together, break off in. -/
def Severed (pieces : List Piece) : Prop :=
  ∃ before b rest after, pieces = before ++ .bytes (b :: rest) :: after
    ∧ Utf8.continues (Utf8.unfinished (before.flatMap Piece.raw)) b = true

theorem severed_concat (ps : List Piece) (p : Piece) :
    Severed (ps ++ [p]) ↔ Severed ps ∨ ∃ b rest, p = .bytes (b :: rest)
      ∧ Utf8.continues (Utf8.unfinished (ps.flatMap Piece.raw)) b = true := by
  constructor
  · rintro ⟨before, b, rest, after, heq, hb⟩
    rcases List.eq_nil_or_concat after with rfl | ⟨after, q, rfl⟩
    · obtain ⟨rfl, hp⟩ := List.append_inj' heq rfl
      cases hp
      exact .inr ⟨b, rest, rfl, hb⟩
    · rw [List.concat_eq_append, ← List.cons_append, ← List.append_assoc] at heq
      obtain ⟨rfl, -⟩ := List.append_inj' heq rfl
      exact .inl ⟨before, b, rest, after, rfl, hb⟩
  · rintro (⟨before, b, rest, after, rfl, hb⟩ | ⟨b, rest, rfl, hb⟩)
    · refine ⟨before, b, rest, after ++ [p], ?_, hb⟩
      rw [List.append_assoc, List.cons_append]
    · exact ⟨ps, b, rest, [], rfl, hb⟩

/-- What is not severed reads the same together as apart. -/
theorem lossy_of_not_severed {ps : List Piece} (h : ¬ Severed ps) :
    Utf8.lossy (ps.flatMap Piece.raw) = ps.flatMap Piece.reading := by
  induction ps using List.reverseRecOn with
  | nil => exact Utf8.lossy_nil
  | append_singleton ps p ih =>
    rw [severed_concat, not_or] at h
    obtain ⟨hps, hlast⟩ := h
    rw [List.flatMap_append, List.flatMap_append, List.flatMap_singleton, List.flatMap_singleton,
      ← ih hps]
    rcases p with run | cs
    · cases run with
      | nil => simp [Piece.raw, Piece.reading, Utf8.lossy_nil]
      | cons b rest =>
        refine Utf8.lossy_cut ?_ rest
        by_contra hb
        exact hlast ⟨b, rest, rfl, Bool.of_not_eq_false hb⟩
    · by_cases hcs : cs = []
      · subst hcs
        simp [Piece.raw, Piece.reading, Utf8.encode]
      · exact (Utf8.lossy_append_encode _ hcs).1

theorem length_lossy_append_pieces_le (xs : List UInt8) (ps : List Piece) :
    (Utf8.lossy (xs ++ ps.flatMap Piece.raw)).length
      ≤ (Utf8.lossy xs).length + (ps.flatMap Piece.reading).length := by
  induction ps generalizing xs with
  | nil => simp
  | cons p ps ih =>
    have hrest := ih (xs ++ p.raw)
    have hp := Utf8.length_lossy_append_le xs p.raw
    rw [p.lossy_raw] at hp
    rw [List.flatMap_cons, List.flatMap_cons, ← List.append_assoc, List.length_append]
    omega

/-- Pieces read the same together as apart exactly if they are not severed. -/
theorem lossy_eq_reading_iff (ps : List Piece) :
    Utf8.lossy (ps.flatMap Piece.raw) = ps.flatMap Piece.reading ↔ ¬ Severed ps := by
  refine ⟨?_, lossy_of_not_severed⟩
  rintro heq ⟨before, b, rest, after, rfl, hb⟩
  have hbefore := length_lossy_append_pieces_le [] before
  have hcut := Utf8.length_lossy_append_lt hb rest
  have hafter := length_lossy_append_pieces_le (before.flatMap Piece.raw ++ b :: rest) after
  have hlen := congrArg List.length heq
  rw [List.flatMap_append, List.flatMap_append, List.flatMap_cons, List.flatMap_cons,
    ← List.append_assoc, List.length_append, List.length_append] at hlen
  rw [List.nil_append, Utf8.lossy_nil] at hbefore
  simp only [Piece.raw, Piece.reading, List.length_nil] at hlen hbefore
  omega

end ScanTrace
