/-
Checking a byte list as a whole. A checker of UTF-8 gives the text of a list
that is well-formed, and of another it says where the first flaw is: how many
bytes in front of it are well-formed, and how many are ill-formed together
there, unless the list ends before that can be said. `Checker.Reliable` states
what the answers of such a checker mean, and it does so with encoded texts
alone: no width, no class of bytes and no decoder is mentioned.

An ill-formed part is as long as it may be and still begin a character, or one
byte long if not even that begins one. The list breaks off if all that is left
of it begins a character.

What these words mean to the byte-wise decoder: at a flaw no character is
complete (`Stuck`), so bytes there begin a character exactly if the decoder
holds all of them (`Stuck.opens_iff`). That makes a checker out of the decoder,
one which tries all lengths (`Checker.trying`), and shows that reliable
checkers exist.
-/
import ScanTrace.Proofs.Utf8.Beginnings

namespace ScanTrace.Utf8

-- ================================================================= checkers

/-- Where a byte list is not well-formed. -/
structure Flaw where
  /-- How many bytes are in front of it, well-formed together. -/
  start : Nat
  /-- How many bytes are ill-formed together, none if the list breaks off in them. -/
  length? : Option Nat
  deriving DecidableEq

/-- Gives the text of a byte list, or its first flaw. -/
abbrev Checker := List UInt8 → Except Flaw (List Char)

/-- All bytes of some character, or the first of them. -/
def Opens (part : List UInt8) : Prop := ∃ c, part <+: String.utf8EncodeChar c

/-- The lengths of an ill-formed part at the front of these bytes, of which the greatest
counts. -/
def illFormedLengths (bytes : List UInt8) : Set Nat :=
  {n | n ≤ bytes.length ∧ (n = 1 ∨ Opens (bytes.take n))}

/-- A checker whose answers are right. -/
structure Checker.Reliable (check : Checker) : Prop where
  ok_iff : ∀ {bytes text}, check bytes = .ok text ↔ bytes = encode text
  start : ∀ {bytes flaw}, check bytes = .error flaw →
    IsGreatest {n | n ≤ bytes.length ∧ ∃ text, bytes.take n = encode text} flaw.start
  breaksOff : ∀ {bytes flaw}, check bytes = .error flaw → flaw.length? = none →
    Opens (bytes.drop flaw.start)
  illFormed : ∀ {bytes flaw n}, check bytes = .error flaw → flaw.length? = some n →
    ¬ Opens (bytes.drop flaw.start) ∧ IsGreatest (illFormedLengths (bytes.drop flaw.start)) n

-- ================================================== beginnings of characters

theorem Begins.opens {held : List UInt8} (h : Begins held) : Opens held := by
  cases held with
  | nil => exact ⟨replacement, List.nil_prefix⟩
  | cons lead more =>
    obtain ⟨rest, -, hcomplete⟩ := h.exists_completes
    refine ⟨character (lead :: (more ++ rest)), rest, ?_⟩
    rw [encodeChar_character hcomplete]
    rfl

/-- A byte that goes on with a beginning leaves one, or a character. -/
theorem Begins.opens_concat {held : List UInt8} {b : UInt8} (h : Begins held)
    (hb : continues held b = true) : Opens (held ++ [b]) := by
  cases held with
  | nil => cases hb
  | cons lead more =>
    by_cases hw : more.length + 2 = width lead
    · refine ⟨character (lead :: (more ++ [b])), ?_⟩
      rw [encodeChar_character (completes_of_continues h hb hw)]
      exact List.prefix_rfl
    · exact (begins_of_continues h hb hw).opens

/-- The first bytes of a character, but not all of them, are a beginning. -/
theorem begins_of_append_eq_encodeChar {part rest : List UInt8} {c : Char}
    (h : part ++ rest = String.utf8EncodeChar c) (hne : rest ≠ []) : Begins part := by
  have hall : feed [] (part ++ rest) = ([some c], []) := by rw [h, feed_encodeChar]
  rw [feed_append] at hall
  obtain ⟨hparts, hheld⟩ := Prod.mk.inj hall
  have hnothing : (feed [] part).1 = [] := by
    by_contra hsome
    have hlater : (feed (feed [] part).2 rest).1 = [] := by
      obtain ⟨first, more, hfirst⟩ := List.exists_cons_of_ne_nil hsome
      rw [hfirst, List.cons_append] at hparts
      exact (List.append_eq_nil_iff.mp (List.cons.inj hparts).2).2
    rw [feed_snd_of_fst_eq_nil hlater] at hheld
    exact hne (List.append_eq_nil_iff.mp hheld).2
  have hpart : (feed [] part).2 = part := feed_snd_of_fst_eq_nil hnothing
  rw [← hpart]
  exact begins_feed begins_nil part

/-- No character is complete at the front of these bytes. -/
def Stuck (bytes : List UInt8) : Prop := ∀ c, ¬ String.utf8EncodeChar c <+: bytes

theorem Stuck.begins {bytes part : List UInt8} (h : Stuck bytes) (hpart : part <+: bytes)
    (ho : Opens part) : Begins part := by
  obtain ⟨c, rest, hc⟩ := ho
  refine begins_of_append_eq_encodeChar hc ?_
  rintro rfl
  rw [List.append_nil] at hc
  exact h c (hc ▸ hpart)

theorem drain_of_begins {held : List UInt8} (h : Begins held) : drain held = ([], held) := by
  refine Prod.ext ?_ ?_
  · exact congrArg shown (feed_of_begins h)
  · rw [drain_snd, unfinished_of_begins h]

theorem begins_of_drain {held : List UInt8} (h : drain held = ([], held)) : Begins held := by
  have hheld : unfinished held = held := by rw [← drain_snd, h]
  rw [← hheld]
  exact begins_unfinished held

/-- Where no character is complete, bytes begin one if the decoder holds them all. -/
theorem Stuck.opens_iff {bytes part : List UInt8} (h : Stuck bytes) (hpart : part <+: bytes) :
    Opens part ↔ drain part = ([], part) :=
  ⟨fun ho => drain_of_begins (h.begins hpart ho), fun hd => (begins_of_drain hd).opens⟩

/-- Behind the longest text at the front of a byte list no character is complete. -/
theorem stuck_of_isGreatest {bytes : List UInt8} {n : Nat}
    (h : IsGreatest {n | n ≤ bytes.length ∧ ∃ text, bytes.take n = encode text} n) :
    Stuck (bytes.drop n) := by
  obtain ⟨⟨hle, text, htext⟩, hmax⟩ := h
  rintro c ⟨rest, hrest⟩
  have hbytes : bytes = encode (text ++ [c]) ++ rest := by
    rw [encode_append, ← htext, List.append_assoc, encode_cons, List.append_assoc]
    exact (hrest.symm ▸ List.take_append_drop n bytes).symm
  have hlonger : (encode (text ++ [c])).length ≤ n := by
    refine hmax ⟨?_, text ++ [c], ?_⟩
    · rw [hbytes, List.length_append]
      exact Nat.le_add_right _ _
    · rw [hbytes, List.take_left]
  have htaken : (encode text).length = n := by
    rw [← htext, List.length_take, min_eq_left hle]
  obtain ⟨a, tail, ha, -⟩ := encodeChar_head c
  rw [encode_append, List.length_append, htaken, encode_cons, ha] at hlonger
  simp at hlonger

-- ======================================================= trying all lengths

/-- How many bytes at the front are well-formed together. -/
def wellFormedLength (bytes : List UInt8) : Nat :=
  Nat.findGreatest (fun n => encode (lossy (bytes.take n)) = bytes.take n) bytes.length

/-- How many bytes at the front are ill-formed together, if no character is complete there. -/
def illFormedLength? (bytes : List UInt8) : Option Nat :=
  if drain bytes = ([], bytes) then none
  else some (Nat.findGreatest
    (fun n => n = 1 ∨ drain (bytes.take n) = ([], bytes.take n)) bytes.length)

theorem isGreatest_findGreatest {P : Nat → Prop} [DecidablePred P] {m n : Nat} (hm : m ≤ n)
    (hP : P m) : IsGreatest {k | k ≤ n ∧ P k} (Nat.findGreatest P n) :=
  ⟨⟨Nat.findGreatest_le n, Nat.findGreatest_spec hm hP⟩,
    fun _ hk => Nat.le_findGreatest hk.1 hk.2⟩

theorem isGreatest_wellFormedLength (bytes : List UInt8) :
    IsGreatest {n | n ≤ bytes.length ∧ ∃ text, bytes.take n = encode text}
      (wellFormedLength bytes) := by
  have hnone : encode (lossy (bytes.take 0)) = bytes.take 0 := by
    rw [List.take_zero, lossy_nil]
    rfl
  have hgreatest := isGreatest_findGreatest
    (P := fun n => encode (lossy (bytes.take n)) = bytes.take n) (Nat.zero_le bytes.length) hnone
  simp only [encode_lossy_eq_iff] at hgreatest
  exact hgreatest

theorem opens_of_illFormedLength? {bytes : List UInt8} (h : illFormedLength? bytes = none) :
    Opens bytes := by
  unfold illFormedLength? at h
  split_ifs at h with hopens
  exact (begins_of_drain hopens).opens

theorem isGreatest_illFormedLength? {bytes : List UInt8} {n : Nat} (hstuck : Stuck bytes)
    (h : illFormedLength? bytes = some n) :
    ¬ Opens bytes ∧ IsGreatest (illFormedLengths bytes) n := by
  unfold illFormedLength? at h
  split_ifs at h with hopens
  obtain rfl := Option.some.inj h
  refine ⟨?_, ?_⟩
  · rwa [hstuck.opens_iff List.prefix_rfl]
  · have hone : 1 ≤ bytes.length := by
      rw [Nat.one_le_iff_ne_zero, ne_eq, List.length_eq_zero_iff]
      rintro rfl
      exact hopens rfl
    unfold illFormedLengths
    simp only [hstuck.opens_iff (List.take_prefix _ bytes)]
    exact isGreatest_findGreatest hone (.inl rfl)

/-- A checker that finds a flaw by trying all lengths. -/
def Checker.trying : Checker := fun bytes =>
  if encode (lossy bytes) = bytes then .ok (lossy bytes)
  else
    let start := wellFormedLength bytes
    .error { start, length? := illFormedLength? (bytes.drop start) }

theorem Checker.trying_eq_ok_iff {bytes : List UInt8} {text : List Char} :
    Checker.trying bytes = .ok text ↔ bytes = encode text := by
  unfold Checker.trying
  split_ifs with h
  · constructor
    · rintro ⟨⟩
      exact h.symm
    · rintro rfl
      rw [lossy_encode]
  · constructor
    · nofun
    · exact fun htext => absurd (encode_lossy_eq_iff.mpr ⟨text, htext⟩) h

theorem Checker.flaw_of_trying {bytes : List UInt8} {flaw : Flaw}
    (h : Checker.trying bytes = .error flaw) :
    flaw = ⟨wellFormedLength bytes, illFormedLength? (bytes.drop (wellFormedLength bytes))⟩ := by
  unfold Checker.trying at h
  split_ifs at h
  exact (Except.error.inj h).symm

theorem Checker.reliable_trying : Checker.trying.Reliable where
  ok_iff := trying_eq_ok_iff
  start := by
    intro bytes flaw h
    obtain rfl := flaw_of_trying h
    exact isGreatest_wellFormedLength bytes
  breaksOff := by
    intro bytes flaw h hlength
    obtain rfl := flaw_of_trying h
    exact opens_of_illFormedLength? hlength
  illFormed := by
    intro bytes flaw n h hlength
    obtain rfl := flaw_of_trying h
    have hstuck := stuck_of_isGreatest (isGreatest_wellFormedLength bytes)
    exact isGreatest_illFormedLength? hstuck hlength

end ScanTrace.Utf8
