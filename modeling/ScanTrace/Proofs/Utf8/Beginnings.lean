/-
What the beginning of a sequence is. The decoder holds bytes of which it
knows that more may come (`Begins`); here it is shown that more can: behind
every beginning there is an end that makes it the bytes of a character, so
holding it is never in vain. Nothing of a beginning is a text yet, not even
a part of it from the front, and given up it is worth one replacement
character.

A sequence that has all its bytes is the encoding of the character that the
decoder makes of it (`encodeChar_character`), and a beginning that has not
can be continued (`Begins.exists_continues`), one byte at a time.
-/
import ScanTrace.Proofs.Utf8.Encoding

namespace ScanTrace.Utf8

-- ====================================================== complete sequences

/-- All bytes of one sequence. -/
def Completes (lead : UInt8) (more : List UInt8) : Prop :=
  more.length + 1 = width lead ∧ tails lead more = more

/-- A complete sequence has at most four bytes; these are its shapes. -/
theorem Completes.shape {lead : UInt8} {more : List UInt8} (h : Completes lead more) :
    (more = [] ∧ width lead = 1)
      ∨ (∃ x, more = [x] ∧ width lead = 2 ∧ isSecond lead x = true)
      ∨ (∃ x y, more = [x, y] ∧ width lead = 3 ∧ isSecond lead x = true ∧ isTail y = true)
      ∨ (∃ x y z, more = [x, y, z] ∧ width lead = 4 ∧ isSecond lead x = true
          ∧ isTail y = true ∧ isTail z = true) := by
  have h4 := width_le_four lead
  obtain ⟨hw, ht⟩ := h
  match more with
  | [] => exact .inl ⟨rfl, hw.symm⟩
  | [x] =>
    have hx : isSecond lead x = true := by
      by_contra hx
      simp [tails, hx] at ht
    exact .inr (.inl ⟨x, rfl, hw.symm, hx⟩)
  | [x, y] =>
    simp only [List.length_cons, List.length_nil] at hw
    have hx : isSecond lead x = true := by
      by_contra hx
      simp [tails, hx] at ht
    have hy : isTail y = true := by
      by_contra hy
      simp [tails, ← hw, hx, hy] at ht
    exact .inr (.inr (.inl ⟨x, y, rfl, hw.symm, hx, hy⟩))
  | [x, y, z] =>
    simp only [List.length_cons, List.length_nil] at hw
    have hx : isSecond lead x = true := by
      by_contra hx
      simp [tails, hx] at ht
    have hy : isTail y = true := by
      by_contra hy
      simp [tails, ← hw, hx, hy] at ht
    have hz : isTail z = true := by
      by_contra hz
      simp [tails, ← hw, hx, hy, hz] at ht
    exact .inr (.inr (.inr ⟨x, y, z, rfl, hw.symm, hx, hy, hz⟩))
  | x :: y :: z :: u :: _ =>
    simp only [List.length_cons] at hw
    omega

theorem toNat_character {bytes : List UInt8}
    (h : scalar bytes < 0xD800 ∨ (0xDFFF < scalar bytes ∧ scalar bytes < 0x110000)) :
    (character bytes).toNat = scalar bytes := by
  have hvalid : (scalar bytes).isValidChar := h
  unfold character Char.ofNat
  rw [dif_pos hvalid]
  rfl

/-- Where the first bytes of each width lie. -/
theorem lead_of_width (lead : UInt8) :
    (width lead = 1 → lead.toNat ≤ 0x7F)
      ∧ (width lead = 2 → 0xC2 ≤ lead.toNat ∧ lead.toNat ≤ 0xDF)
      ∧ (width lead = 3 → 0xE0 ≤ lead.toNat ∧ lead.toNat ≤ 0xEF)
      ∧ (width lead = 4 → 0xF0 ≤ lead.toNat ∧ lead.toNat ≤ 0xF4) := by
  have hwidth := width_eq lead
  have hlt := lead.toNat_lt
  split_ifs at hwidth <;> omega

/-- A complete sequence is the encoding of its character. -/
theorem encodeChar_character {lead : UInt8} {more : List UInt8} (h : Completes lead more) :
    String.utf8EncodeChar (character (lead :: more)) = lead :: more := by
  have hbyte : ∀ {a b : UInt8}, a.toNat = b.toNat → a = b := UInt8.toNat_inj.mp
  obtain ⟨hone, htwo, hthree, hfour⟩ := lead_of_width lead
  obtain ⟨rfl, hw⟩ | ⟨x, rfl, hw, hx⟩ | ⟨x, y, rfl, hw, hx, hy⟩ | ⟨x, y, z, rfl, hw, hx, hy, hz⟩ :=
    h.shape
  · have hrange := hone hw
    have hn : (character [lead]).toNat = lead.toNat :=
      toNat_character (.inl (show lead.toNat < 0xD800 by omega))
    obtain ⟨a, he, ha⟩ := encodeChar_one (c := character [lead]) (by omega)
    rw [he, hbyte (show a.toNat = lead.toNat by omega)]
  · have hrange := htwo hw
    rw [isSecond_iff] at hx
    have hn : (character [lead, x]).toNat = lead.toNat % 32 * 64 + x.toNat % 64 := by
      refine toNat_character (.inl ?_)
      simp only [scalar]
      omega
    obtain ⟨a, b, he, ha, hb⟩ := encodeChar_two (c := character [lead, x]) (by omega) (by omega)
    rw [he, hbyte (show a.toNat = lead.toNat by omega), hbyte (show b.toNat = x.toNat by omega)]
  · have hrange := hthree hw
    rw [isSecond_iff] at hx
    rw [isTail_iff] at hy
    have hn : (character [lead, x, y]).toNat
        = (lead.toNat % 16 * 64 + x.toNat % 64) * 64 + y.toNat % 64 := by
      refine toNat_character ?_
      simp only [scalar]
      omega
    obtain ⟨a, b, d, he, ha, hb, hd⟩ :=
      encodeChar_three (c := character [lead, x, y]) (by omega) (by omega)
    rw [he, hbyte (show a.toNat = lead.toNat by omega), hbyte (show b.toNat = x.toNat by omega),
      hbyte (show d.toNat = y.toNat by omega)]
  · have hrange := hfour hw
    rw [isSecond_iff] at hx
    rw [isTail_iff] at hy hz
    have hn : (character [lead, x, y, z]).toNat
        = ((lead.toNat % 8 * 64 + x.toNat % 64) * 64 + y.toNat % 64) * 64 + z.toNat % 64 := by
      refine toNat_character ?_
      simp only [scalar]
      omega
    obtain ⟨a, b, d, e, he, ha, hb, hd, he'⟩ :=
      encodeChar_four (c := character [lead, x, y, z]) (by omega)
    rw [he, hbyte (show a.toNat = lead.toNat by omega), hbyte (show b.toNat = x.toNat by omega),
      hbyte (show d.toNat = y.toNat by omega), hbyte (show e.toNat = z.toNat by omega)]

-- ============================================================== beginnings

/-- Something goes on with every beginning. -/
theorem Begins.exists_continues {lead : UInt8} {more : List UInt8} (h : Begins (lead :: more)) :
    ∃ b, continues (lead :: more) b = true := by
  obtain ⟨rfl, -⟩ | ⟨x, rfl, -, -⟩ | ⟨x, y, rfl, -, -, -⟩ := h.shape
  · show ∃ b, isSecond lead b = true
    -- A0 is in every range but the two that stop below it
    by_cases hed : lead.toNat = 0xED ∨ lead.toNat = 0xF4
    · refine ⟨0x80, (isSecond_iff lead 0x80).mpr ?_⟩
      simp only [UInt8.reduceToNat]
      omega
    · refine ⟨0xA0, (isSecond_iff lead 0xA0).mpr ?_⟩
      simp only [UInt8.reduceToNat]
      omega
  · exact ⟨0x80, show isTail 0x80 = true by decide⟩
  · exact ⟨0x80, show isTail 0x80 = true by decide⟩

/-- The last byte that is missing completes a beginning. -/
theorem completes_of_continues {lead b : UInt8} {more : List UInt8} (h : Begins (lead :: more))
    (hb : continues (lead :: more) b = true) (hw : more.length + 2 = width lead) :
    Completes lead (more ++ [b]) := by
  refine ⟨?_, tails_of_completes [] h hb hw⟩
  rw [List.length_append]
  exact hw

/-- Behind every beginning there is an end that completes it. -/
theorem Begins.exists_completes {lead : UInt8} {more : List UInt8} (h : Begins (lead :: more)) :
    ∃ rest, rest ≠ [] ∧ Completes lead (more ++ rest) := by
  obtain ⟨b, hb⟩ := h.exists_continues
  by_cases hw : more.length + 2 = width lead
  · exact ⟨[b], List.cons_ne_nil b [], completes_of_continues h hb hw⟩
  · have hnext : Begins (lead :: (more ++ [b])) := begins_of_continues h hb hw
    obtain ⟨rest, -, hrest⟩ := hnext.exists_completes
    refine ⟨b :: rest, List.cons_ne_nil b rest, ?_⟩
    rwa [List.append_assoc] at hrest
termination_by width lead - more.length
decreasing_by
  have hlt := h.1
  rw [List.length_append, List.length_singleton]
  omega

-- ============================================================ nothing yet

/-- A byte that settles nothing joins the bytes that are held. -/
theorem step_snd_of_fst_eq_nil {held : List UInt8} {b : UInt8} (h : (step held b).1 = []) :
    (step held b).2 = held ++ [b] := by
  cases held with
  | nil =>
    unfold step start at h ⊢
    dsimp only at h ⊢
    split at h
    · cases h
    · cases h
    · rfl
  | cons lead more =>
    unfold step at h ⊢
    dsimp only at h ⊢
    split_ifs at h ⊢
    rfl

theorem feed_snd_of_fst_eq_nil {held bytes : List UInt8} (h : (feed held bytes).1 = []) :
    (feed held bytes).2 = held ++ bytes := by
  induction bytes generalizing held with
  | nil => exact (List.append_nil held).symm
  | cons b rest ih =>
    obtain ⟨hnow, hlater⟩ := List.append_eq_nil_iff.mp h
    have hrest : (feed (step held b).2 rest).2 = (step held b).2 ++ rest := ih hlater
    rw [step_snd_of_fst_eq_nil hnow, List.append_assoc] at hrest
    rw [step_snd_of_fst_eq_nil hnow] at hlater
    show (feed (step held b).2 rest).2 = _
    rw [step_snd_of_fst_eq_nil hnow]
    exact hrest

theorem step_snd_suffix (held : List UInt8) (b : UInt8) : (step held b).2 <:+ held ++ [b] := by
  have hstart : (start b).2 <:+ [b] := by
    unfold start
    split
    · exact List.nil_suffix
    · exact List.nil_suffix
    · exact List.suffix_rfl
  cases held with
  | nil => exact hstart
  | cons lead more =>
    unfold step
    dsimp only
    split_ifs
    · exact List.nil_suffix
    · exact List.suffix_rfl
    · exact hstart.trans (List.suffix_append _ _)

/-- What is held is the end of what came in. -/
theorem feed_snd_suffix (held bytes : List UInt8) : (feed held bytes).2 <:+ held ++ bytes := by
  induction bytes generalizing held with
  | nil =>
    rw [List.append_nil]
    exact List.suffix_rfl
  | cons b rest ih =>
    have hnow : (step held b).2 ++ rest <:+ (held ++ [b]) ++ rest := by
      obtain ⟨front, hfront⟩ := step_snd_suffix held b
      exact ⟨front, by rw [← List.append_assoc, hfront]⟩
    rw [List.append_assoc, List.singleton_append] at hnow
    exact (ih _).trans hnow

theorem feed_of_begins {held : List UInt8} (h : Begins held) : (feed [] held).1 = [] := by
  have hsettled : (drain held).1 = [] := by
    rw [drain_fst]
    unfold settled
    rw [unfinished_of_begins h, lossy_of_begins h]
    split_ifs <;> rfl
  exact List.map_eq_nil_iff.mp hsettled

/-- No part of a beginning, from its front, is well-formed. -/
theorem Begins.decode?_prefix {held part : List UInt8} (h : Begins held) (hp : part <+: held)
    (hne : part ≠ []) : decode? part = none := by
  obtain ⟨rest, rfl⟩ := hp
  have hall := feed_of_begins h
  rw [feed_append] at hall
  have hpart : (feed [] part).1 = [] := (List.append_eq_nil_iff.mp hall).1
  have hheld : (feed [] part).2 = part := feed_snd_of_fst_eq_nil hpart
  unfold decode?
  split
  · next parts heq =>
    rw [heq] at hheld
    exact absurd hheld.symm hne
  · rfl

/-- Bytes that break off in a sequence: one to three, which are not all the bytes
of some character but the first of them, and of which no part from the front
is well-formed. -/
structure BreaksOff (bytes : List UInt8) : Prop where
  length : 1 ≤ bytes.length ∧ bytes.length ≤ 3
  goesOn : ∃ c rest, rest ≠ [] ∧ String.utf8EncodeChar c = bytes ++ rest
  illFormed : ∀ part, part <+: bytes → part ≠ [] → decode? part = none

theorem Begins.eq_nil_or_breaksOff {held : List UInt8} (h : Begins held) :
    held = [] ∨ BreaksOff held := by
  cases held with
  | nil => exact .inl rfl
  | cons lead more =>
    obtain ⟨rest, hrest, hcomplete⟩ := h.exists_completes
    refine .inr ⟨⟨?_, h.length_le⟩, ?_, fun part => h.decode?_prefix⟩
    · rw [List.length_cons]
      omega
    · exact ⟨_, rest, hrest, encodeChar_character hcomplete⟩

end ScanTrace.Utf8
