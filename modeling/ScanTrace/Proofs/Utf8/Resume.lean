/-
Reading piece by piece is reading at once. `feed` settles bytes one at a
time and holds back what is not complete; `lossy` has the whole list before
it and counts sequences off from the front. This file shows that they agree
wherever the list is cut.

# The invariant

What `feed` holds is the beginning of one sequence and nothing else
(`Begins`): its first byte announces more bytes than there are, and every
byte behind it belongs to it. One byte after such a beginning does to the
remaining text what `step` says, whether the text is read by `lossy` or by
`unfinished` (`lossy_step`, `unfinished_step`); the run lemmas are the
inductions over these. At the end of the input a beginning that is still
held is worth one replacement character.

# What this gives

- `drain_fst`, `drain_snd`: what a drained list settles and keeps, said by
  the one-shot reader alone.
- `lossy_append`: a text after a cut reads as it would behind what was held.
- `lossy_cut`: where the byte after a cut cannot go on with what was held,
  the two sides can be read apart.
-/
import ScanTrace.Utf8.Lossy
import Mathlib.Tactic

namespace ScanTrace.Utf8

-- ================================================== the end of a byte list

/-- The beginning of a sequence that a byte list breaks off in, none if it ends
between sequences. Read from the front, like `lossy`. -/
def unfinished : List UInt8 → List UInt8
  | [] => []
  | lead :: rest =>
    let own := tails lead rest
    if own.length = rest.length ∧ own.length + 1 < width lead then lead :: own
    else unfinished (rest.drop own.length)
termination_by bytes => bytes.length
decreasing_by simp only [List.length_drop, List.length_cons]; omega

/-- What a byte list that may still go on already says: its text without the
replacement character of a sequence that it breaks off in. -/
def settled (bytes : List UInt8) : List Char :=
  if (unfinished bytes).isEmpty then lossy bytes else (lossy bytes).dropLast

theorem unfinished_nil : unfinished [] = [] := by simp [unfinished]

-- =================================================== beginnings of sequences

/-- The beginning of one sequence, or nothing: the first byte asks for more, and
the bytes behind it are of its sequence. -/
def Begins : List UInt8 → Prop
  | [] => True
  | lead :: more => more.length + 1 < width lead ∧ tails lead more = more

theorem begins_nil : Begins [] := trivial

theorem width_le_four (lead : UInt8) : width lead ≤ 4 := by
  unfold width
  split_ifs <;> omega

theorem tails_of_width_lt {lead : UInt8} (hw : width lead < 2) (rest : List UInt8) :
    tails lead rest = [] := by
  cases rest with
  | nil => rfl
  | cons b rest =>
    have h2 : ¬ 2 ≤ width lead := by omega
    simp [tails, h2]

theorem begins_singleton {lead : UInt8} (hw : 2 ≤ width lead) : Begins [lead] :=
  ⟨hw, rfl⟩

/-- A beginning has at most three bytes; these are its shapes. -/
theorem Begins.shape {lead : UInt8} {more : List UInt8} (h : Begins (lead :: more)) :
    (more = [] ∧ 2 ≤ width lead)
      ∨ (∃ x, more = [x] ∧ 3 ≤ width lead ∧ isSecond lead x = true)
      ∨ (∃ x y, more = [x, y] ∧ width lead = 4 ∧ isSecond lead x = true ∧ isTail y = true) := by
  have h4 := width_le_four lead
  obtain ⟨hw, ht⟩ := h
  match more with
  | [] => exact .inl ⟨rfl, hw⟩
  | [x] =>
    have hx : isSecond lead x = true := by
      by_contra hx
      simp [tails, hx] at ht
    exact .inr (.inl ⟨x, rfl, hw, hx⟩)
  | [x, y] =>
    simp only [List.length_cons, List.length_nil] at hw
    have hw4 : width lead = 4 := by omega
    have hx : isSecond lead x = true := by
      by_contra hx
      simp [tails, hx] at ht
    have hy : isTail y = true := by
      by_contra hy
      simp [tails, hw4, hx, hy] at ht
    exact .inr (.inr ⟨x, y, rfl, hw4, hx, hy⟩)
  | x :: y :: z :: _ =>
    simp only [List.length_cons] at hw
    omega

theorem Begins.length_le {held : List UInt8} (h : Begins held) : held.length ≤ 3 := by
  cases held with
  | nil => exact Nat.zero_le 3
  | cons lead more =>
    have h4 := width_le_four lead
    have hw := h.1
    rw [List.length_cons]
    omega

theorem tails_of_completes {lead b : UInt8} {more : List UInt8} (rest : List UInt8)
    (h : Begins (lead :: more)) (hb : continues (lead :: more) b = true)
    (hw : more.length + 2 = width lead) : tails lead (more ++ b :: rest) = more ++ [b] := by
  obtain ⟨rfl, -⟩ | ⟨x, rfl, -, hx⟩ | ⟨x, y, rfl, -, hx, hy⟩ := h.shape
  · simp only [continues] at hb
    simp [tails, ← hw, hb]
  · simp only [continues] at hb
    simp [tails, ← hw, hx, hb]
  · simp only [continues] at hb
    simp [tails, ← hw, hx, hy, hb]

theorem tails_of_not_continues {lead b : UInt8} {more : List UInt8} (rest : List UInt8)
    (h : Begins (lead :: more)) (hb : continues (lead :: more) b = false) :
    tails lead (more ++ b :: rest) = more := by
  obtain ⟨rfl, -⟩ | ⟨x, rfl, hw, hx⟩ | ⟨x, y, rfl, hw, hx, hy⟩ := h.shape
  · simp only [continues] at hb
    simp [tails, hb]
  · simp only [continues] at hb
    obtain ⟨n, hn⟩ : ∃ n, width lead - 2 = n + 1 := ⟨width lead - 3, by omega⟩
    have hw2 : 2 ≤ width lead := by omega
    simp [tails, hw2, hx, hb, hn]
  · simp only [continues] at hb
    simp [tails, hw, hx, hy, hb]

theorem begins_of_continues {lead b : UInt8} {more : List UInt8}
    (h : Begins (lead :: more)) (hb : continues (lead :: more) b = true)
    (hw : more.length + 2 ≠ width lead) : Begins (lead :: more ++ [b]) := by
  have h4 := width_le_four lead
  have hlt := h.1
  show (more ++ [b]).length + 1 < width lead ∧ tails lead (more ++ [b]) = more ++ [b]
  rw [List.length_append, List.length_singleton]
  refine ⟨by omega, ?_⟩
  obtain ⟨rfl, hw2⟩ | ⟨x, rfl, -, hx⟩ | ⟨x, y, rfl, -, -, -⟩ := h.shape
  · simp only [continues] at hb
    simp [tails, hb, hw2]
  · simp only [continues] at hb
    simp only [List.length_singleton] at hw hlt
    have hw4 : width lead = 4 := by omega
    simp [tails, hw4, hx, hb]
  · simp only [List.length_cons, List.length_nil] at hw hlt
    omega

-- ============================================================== one byte

theorem step_of_completes {lead b : UInt8} {more : List UInt8}
    (hb : continues (lead :: more) b = true) (hw : more.length + 2 = width lead) :
    step (lead :: more) b = ([some (character (lead :: more ++ [b]))], []) := by
  simp [step, hb, hw]

theorem step_of_continues {lead b : UInt8} {more : List UInt8}
    (hb : continues (lead :: more) b = true) (hw : more.length + 2 ≠ width lead) :
    step (lead :: more) b = ([], lead :: more ++ [b]) := by
  simp [step, hb, hw]

theorem step_of_not_continues {lead b : UInt8} {more : List UInt8}
    (hb : continues (lead :: more) b = false) :
    step (lead :: more) b = (none :: (start b).1, (start b).2) := by
  simp [step, hb]

theorem begins_step {held : List UInt8} (h : Begins held) (b : UInt8) :
    Begins (step held b).2 := by
  have hstart : Begins (start b).2 := by
    unfold start
    split
    · trivial
    · trivial
    · next h0 h1 =>
      have h0' : width b ≠ 0 := h0
      have h1' : width b ≠ 1 := h1
      exact begins_singleton (by omega)
  cases held with
  | nil => exact hstart
  | cons lead more =>
    cases hb : continues (lead :: more) b with
    | false =>
      rw [step_of_not_continues hb]
      exact hstart
    | true =>
      by_cases hw : more.length + 2 = width lead
      · rw [step_of_completes hb hw]
        trivial
      · rw [step_of_continues hb hw]
        exact begins_of_continues h hb hw

/-- Ill-formed parts read as the replacement character. -/
abbrev shown (parts : List (Option Char)) : List Char := parts.map (·.getD replacement)

theorem lossy_start (b : UInt8) (rest : List UInt8) :
    lossy (b :: rest) = shown (start b).1 ++ lossy ((start b).2 ++ rest) := by
  unfold start
  split
  · next hw => simp [lossy, tails_of_width_lt (show width b < 2 by omega), hw]
  · next hw => simp [lossy, tails_of_width_lt (show width b < 2 by omega), hw]
  · rfl

/-- What one byte settles, the one-shot reader reads too. -/
theorem lossy_step {held : List UInt8} (h : Begins held) (b : UInt8) (rest : List UInt8) :
    lossy (held ++ b :: rest) = shown (step held b).1 ++ lossy ((step held b).2 ++ rest) := by
  cases held with
  | nil => exact lossy_start b rest
  | cons lead more =>
    cases hb : continues (lead :: more) b with
    | false =>
      have hne : more.length + 1 ≠ width lead := Nat.ne_of_lt h.1
      rw [step_of_not_continues hb, List.cons_append, lossy, tails_of_not_continues rest h hb]
      simp [hne, lossy_start b rest]
    | true =>
      by_cases hw : more.length + 2 = width lead
      · rw [step_of_completes hb hw, List.cons_append, lossy, tails_of_completes rest h hb hw]
        simp [hw]
      · rw [step_of_continues hb hw]
        simp

theorem unfinished_start (b : UInt8) (rest : List UInt8) :
    unfinished (b :: rest) = unfinished ((start b).2 ++ rest) := by
  unfold start
  split
  · next hw =>
    rw [unfinished, tails_of_width_lt (by omega)]
    simp [hw]
  · next hw =>
    rw [unfinished, tails_of_width_lt (by omega)]
    simp [hw]
  · rfl

theorem unfinished_step {held : List UInt8} (h : Begins held) (b : UInt8)
    (rest : List UInt8) :
    unfinished (held ++ b :: rest) = unfinished ((step held b).2 ++ rest) := by
  cases held with
  | nil => exact unfinished_start b rest
  | cons lead more =>
    cases hb : continues (lead :: more) b with
    | false =>
      rw [step_of_not_continues hb, List.cons_append, unfinished,
        tails_of_not_continues rest h hb]
      simp [unfinished_start b rest]
    | true =>
      by_cases hw : more.length + 2 = width lead
      · rw [step_of_completes hb hw, List.cons_append, unfinished,
          tails_of_completes rest h hb hw]
        simp [hw]
      · rw [step_of_continues hb hw]
        simp

-- ======================================================== runs of bytes

theorem lossy_of_begins {held : List UInt8} (h : Begins held) :
    lossy held = if held.isEmpty then [] else [replacement] := by
  cases held with
  | nil => exact lossy_nil
  | cons lead more =>
    have hne : more.length + 1 ≠ width lead := Nat.ne_of_lt h.1
    rw [lossy, h.2]
    simp [hne, lossy_nil]

theorem unfinished_of_begins {held : List UInt8} (h : Begins held) : unfinished held = held := by
  cases held with
  | nil => exact unfinished_nil
  | cons lead more =>
    rw [unfinished, h.2]
    simp [h.1]

theorem begins_feed {held : List UInt8} (h : Begins held) (bytes : List UInt8) :
    Begins (feed held bytes).2 := by
  induction bytes generalizing held with
  | nil => exact h
  | cons b rest ih => exact ih (begins_step h b)

theorem lossy_feed {held : List UInt8} (h : Begins held) (bytes rest : List UInt8) :
    lossy (held ++ (bytes ++ rest))
      = shown (feed held bytes).1 ++ lossy ((feed held bytes).2 ++ rest) := by
  induction bytes generalizing held with
  | nil => simp [feed]
  | cons b bytes ih =>
    rw [List.cons_append, lossy_step h, ih (begins_step h b), feed]
    simp

theorem unfinished_feed {held : List UInt8} (h : Begins held) (bytes rest : List UInt8) :
    unfinished (held ++ (bytes ++ rest)) = unfinished ((feed held bytes).2 ++ rest) := by
  induction bytes generalizing held with
  | nil => rfl
  | cons b bytes ih =>
    rw [List.cons_append, unfinished_step h, ih (begins_step h b)]
    rfl

-- =============================================================== draining

theorem drain_snd (bytes : List UInt8) : (drain bytes).2 = unfinished bytes := by
  have h := unfinished_feed begins_nil bytes []
  rw [List.nil_append, List.append_nil, List.append_nil,
    unfinished_of_begins (begins_feed begins_nil bytes)] at h
  exact h.symm

theorem begins_unfinished (bytes : List UInt8) : Begins (unfinished bytes) := by
  rw [← drain_snd]
  exact begins_feed begins_nil bytes

/-- A text after a cut reads as it would behind the bytes that are held there. -/
theorem lossy_append_eq_drain (xs ys : List UInt8) :
    lossy (xs ++ ys) = (drain xs).1 ++ lossy (unfinished xs ++ ys) := by
  rw [← drain_snd]
  exact lossy_feed begins_nil xs ys

theorem unfinished_append (xs ys : List UInt8) :
    unfinished (xs ++ ys) = unfinished (unfinished xs ++ ys) := by
  rw [← drain_snd xs]
  exact unfinished_feed begins_nil xs ys

theorem lossy_unfinished (bytes : List UInt8) :
    lossy (unfinished bytes) = if (unfinished bytes).isEmpty then [] else [replacement] :=
  lossy_of_begins (begins_unfinished bytes)

/-- What a drained list settles is its text but for the replacement character of
the sequence that it breaks off in. -/
theorem drain_fst (bytes : List UInt8) : (drain bytes).1 = settled bytes := by
  have h := lossy_append_eq_drain bytes []
  rw [List.append_nil, List.append_nil, lossy_unfinished] at h
  unfold settled
  rw [h]
  split_ifs with hu
  · simp
  · simp

theorem lossy_eq_settled (bytes : List UInt8) :
    lossy bytes = settled bytes ++ lossy (unfinished bytes) := by
  have h := lossy_append_eq_drain bytes []
  rwa [List.append_nil, List.append_nil, drain_fst] at h

/-- The one-shot reading, computed byte by byte. -/
theorem lossy_eq_drain (bytes : List UInt8) :
    lossy bytes
      = (drain bytes).1 ++ if (drain bytes).2.isEmpty then [] else [replacement] := by
  rw [drain_fst, drain_snd, ← lossy_unfinished]
  exact lossy_eq_settled bytes

theorem lossy_append (xs ys : List UInt8) :
    lossy (xs ++ ys) = settled xs ++ lossy (unfinished xs ++ ys) := by
  rw [lossy_append_eq_drain, drain_fst]

theorem settled_append (xs ys : List UInt8) :
    settled (xs ++ ys) = settled xs ++ settled (unfinished xs ++ ys) := by
  have h : lossy (xs ++ ys) = settled xs ++ lossy (unfinished xs ++ ys) := lossy_append xs ys
  rw [lossy_eq_settled (xs ++ ys), lossy_eq_settled (unfinished xs ++ ys), unfinished_append,
    ← List.append_assoc] at h
  exact List.append_cancel_right h

-- ================================================================= cuts

/-- Where the next byte cannot go on with what is unfinished, the two sides of a
cut are read apart. -/
theorem lossy_cut {xs : List UInt8} {b : UInt8} (h : continues (unfinished xs) b = false)
    (ys : List UInt8) : lossy (xs ++ b :: ys) = lossy xs ++ lossy (b :: ys) := by
  rw [lossy_append, lossy_eq_settled xs, List.append_assoc]
  congr 1
  have hbegins := begins_unfinished xs
  rw [lossy_unfinished]
  generalize unfinished xs = held at h hbegins ⊢
  cases held with
  | nil => rfl
  | cons lead more =>
    rw [lossy_step hbegins, step_of_not_continues h, lossy_start b ys]
    rfl

theorem unfinished_cut {xs : List UInt8} {b : UInt8} (h : continues (unfinished xs) b = false)
    (ys : List UInt8) : unfinished (xs ++ b :: ys) = unfinished (b :: ys) := by
  rw [unfinished_append]
  have hbegins := begins_unfinished xs
  generalize unfinished xs = held at h hbegins ⊢
  cases held with
  | nil => rfl
  | cons lead more => rw [unfinished_step hbegins, step_of_not_continues h, unfinished_start b ys]

end ScanTrace.Utf8
