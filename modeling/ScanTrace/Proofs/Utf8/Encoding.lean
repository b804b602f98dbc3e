/-
Texts among bytes. A text that was encoded is read back as it was, whatever
bytes stand before it, because no encoded character begins with a byte that
could go on with an older sequence; and what stands behind it is read as if
nothing had been before.

The bytes of a character are given by their numbers (`encodeChar_two` and so
on), so that each question of the decoder about one of them is a question of
linear arithmetic.
-/
import ScanTrace.Proofs.Utf8.Resume

namespace ScanTrace.Utf8

-- ==================================================== classes by numbers

theorem isTail_iff (b : UInt8) : isTail b = true ↔ 0x80 ≤ b.toNat ∧ b.toNat ≤ 0xBF := by
  simp [isTail, UInt8.le_iff_toNat_le]

theorem isSecond_iff (lead b : UInt8) :
    isSecond lead b = true ↔ (0x80 ≤ b.toNat ∧ b.toNat ≤ 0xBF)
      ∧ (lead.toNat = 0xE0 → 0xA0 ≤ b.toNat) ∧ (lead.toNat = 0xED → b.toNat ≤ 0x9F)
      ∧ (lead.toNat = 0xF0 → 0x90 ≤ b.toNat) ∧ (lead.toNat = 0xF4 → b.toNat ≤ 0x8F) := by
  simp [isSecond, isTail_iff, UInt8.le_iff_toNat_le, ← UInt8.toNat_inj, imp_iff_not_or, and_assoc]

theorem width_eq (lead : UInt8) :
    width lead = if lead.toNat ≤ 0x7F then 1 else if lead.toNat ≤ 0xC1 then 0
      else if lead.toNat ≤ 0xDF then 2 else if lead.toNat ≤ 0xEF then 3
      else if lead.toNat ≤ 0xF4 then 4 else 0 := by
  simp [width, UInt8.le_iff_toNat_le]

/-- Only bytes of the tail range go on with a sequence. -/
theorem isTail_of_continues {held : List UInt8} {b : UInt8} (h : continues held b = true) :
    isTail b = true := by
  match held with
  | [] => simp [continues] at h
  | [lead] => exact (isTail_iff b).mpr ((isSecond_iff lead b).mp h).1
  | _ :: _ :: _ => exact h

theorem start_of_isTail {b : UInt8} (h : isTail b = true) : start b = ([none], []) := by
  have hb := (isTail_iff b).mp h
  have hw : width b = 0 := by
    rw [width_eq]
    split_ifs <;> omega
  simp [start, hw]

-- ================================================== the bytes of characters

theorem toNat_ofNat_of_lt {n : Nat} (h : n < 256) : (UInt8.ofNat n).toNat = n := by
  rw [UInt8.toNat_ofNat']
  exact Nat.mod_eq_of_lt h

theorem toNat_valid (c : Char) :
    c.toNat < 0xD800 ∨ (0xDFFF < c.toNat ∧ c.toNat < 0x110000) := c.valid

theorem encodeChar_one {c : Char} (h : c.toNat ≤ 0x7F) :
    ∃ a, String.utf8EncodeChar c = [a] ∧ a.toNat = c.toNat := by
  refine ⟨_, ?_, toNat_ofNat_of_lt (n := c.toNat) (by omega)⟩
  unfold String.utf8EncodeChar
  exact if_pos h

theorem encodeChar_two {c : Char} (h : 0x7F < c.toNat) (h' : c.toNat ≤ 0x7FF) :
    ∃ a b, String.utf8EncodeChar c = [a, b] ∧ a.toNat = c.toNat / 64 + 0xC0
      ∧ b.toNat = c.toNat % 64 + 0x80 := by
  refine ⟨_, _, ?_, toNat_ofNat_of_lt (n := c.toNat / 64 + 0xC0) (by omega),
    toNat_ofNat_of_lt (n := c.toNat % 64 + 0x80) (by omega)⟩
  have h1 : ¬ c.toNat ≤ 0x7F := by omega
  have hm : c.toNat / 64 % 32 = c.toNat / 64 := Nat.mod_eq_of_lt (by omega)
  unfold String.utf8EncodeChar
  rw [show c.val.toNat = c.toNat from rfl]
  simp only [if_neg h1, if_pos h', hm]

theorem encodeChar_three {c : Char} (h : 0x7FF < c.toNat) (h' : c.toNat ≤ 0xFFFF) :
    ∃ a b d, String.utf8EncodeChar c = [a, b, d] ∧ a.toNat = c.toNat / 4096 + 0xE0
      ∧ b.toNat = c.toNat / 64 % 64 + 0x80 ∧ d.toNat = c.toNat % 64 + 0x80 := by
  refine ⟨_, _, _, ?_, toNat_ofNat_of_lt (n := c.toNat / 4096 + 0xE0) (by omega),
    toNat_ofNat_of_lt (n := c.toNat / 64 % 64 + 0x80) (by omega),
    toNat_ofNat_of_lt (n := c.toNat % 64 + 0x80) (by omega)⟩
  have h1 : ¬ c.toNat ≤ 0x7F := by omega
  have h2 : ¬ c.toNat ≤ 0x7FF := by omega
  have hm : c.toNat / 4096 % 16 = c.toNat / 4096 := Nat.mod_eq_of_lt (by omega)
  unfold String.utf8EncodeChar
  rw [show c.val.toNat = c.toNat from rfl]
  simp only [if_neg h1, if_neg h2, if_pos h', hm]

theorem encodeChar_four {c : Char} (h : 0xFFFF < c.toNat) :
    ∃ a b d e, String.utf8EncodeChar c = [a, b, d, e] ∧ a.toNat = c.toNat / 262144 + 0xF0
      ∧ b.toNat = c.toNat / 4096 % 64 + 0x80 ∧ d.toNat = c.toNat / 64 % 64 + 0x80
      ∧ e.toNat = c.toNat % 64 + 0x80 := by
  have hv := toNat_valid c
  refine ⟨_, _, _, _, ?_, toNat_ofNat_of_lt (n := c.toNat / 262144 + 0xF0) (by omega),
    toNat_ofNat_of_lt (n := c.toNat / 4096 % 64 + 0x80) (by omega),
    toNat_ofNat_of_lt (n := c.toNat / 64 % 64 + 0x80) (by omega),
    toNat_ofNat_of_lt (n := c.toNat % 64 + 0x80) (by omega)⟩
  have h1 : ¬ c.toNat ≤ 0x7F := by omega
  have h2 : ¬ c.toNat ≤ 0x7FF := by omega
  have h3 : ¬ c.toNat ≤ 0xFFFF := by omega
  have hm : c.toNat / 262144 % 8 = c.toNat / 262144 := Nat.mod_eq_of_lt (by omega)
  unfold String.utf8EncodeChar
  rw [show c.val.toNat = c.toNat from rfl]
  simp only [if_neg h1, if_neg h2, if_neg h3, hm]

theorem feed_encodeChar (c : Char) : feed [] (String.utf8EncodeChar c) = ([some c], []) := by
  have hv := toNat_valid c
  have hc : ∀ bytes, scalar bytes = c.toNat → character bytes = c := by
    intro bytes h
    rw [character, h, Char.ofNat_toNat]
  obtain h | ⟨h, h'⟩ | ⟨h, h'⟩ | h :
      c.toNat ≤ 0x7F ∨ (0x7F < c.toNat ∧ c.toNat ≤ 0x7FF) ∨ (0x7FF < c.toNat ∧ c.toNat ≤ 0xFFFF)
        ∨ 0xFFFF < c.toNat := by omega
  · obtain ⟨a, he, ha⟩ := encodeChar_one h
    have hw : width a = 1 := by
      rw [width_eq]
      split_ifs <;> omega
    rw [he]
    simp [feed, step, start, hw, hc [a] ha]
  · obtain ⟨a, b, he, ha, hb⟩ := encodeChar_two h h'
    have hw : width a = 2 := by
      rw [width_eq]
      split_ifs <;> omega
    have hs : isSecond a b = true := by
      rw [isSecond_iff]
      omega
    have hn : scalar [a, b] = c.toNat := by
      simp only [scalar]
      omega
    rw [he]
    simp [feed, step, start, continues, hw, hs, hc _ hn]
  · obtain ⟨a, b, d, he, ha, hb, hd⟩ := encodeChar_three h h'
    have hw : width a = 3 := by
      rw [width_eq]
      split_ifs <;> omega
    have hs : isSecond a b = true := by
      rw [isSecond_iff]
      omega
    have ht : isTail d = true := by
      rw [isTail_iff]
      omega
    have hn : scalar [a, b, d] = c.toNat := by
      simp only [scalar]
      omega
    rw [he]
    simp [feed, step, start, continues, hw, hs, ht, hc _ hn]
  · obtain ⟨a, b, d, e, he, ha, hb, hd, he'⟩ := encodeChar_four h
    have hw : width a = 4 := by
      rw [width_eq]
      split_ifs <;> omega
    have hs : isSecond a b = true := by
      rw [isSecond_iff]
      omega
    have ht : isTail d = true := by
      rw [isTail_iff]
      omega
    have ht' : isTail e = true := by
      rw [isTail_iff]
      omega
    have hn : scalar [a, b, d, e] = c.toNat := by
      simp only [scalar]
      omega
    rw [he]
    simp [feed, step, start, continues, hw, hs, ht, ht', hc _ hn]

/-- No encoded character begins with a byte that goes on with something. -/
theorem encodeChar_head (c : Char) :
    ∃ a rest, String.utf8EncodeChar c = a :: rest ∧ isTail a = false := by
  have hv := toNat_valid c
  have hnot : ∀ a : UInt8, a.toNat ≤ 0x7F ∨ 0xC0 ≤ a.toNat → isTail a = false := by
    intro a ha
    rw [← Bool.not_eq_true, isTail_iff]
    omega
  obtain h | ⟨h, h'⟩ | ⟨h, h'⟩ | h :
      c.toNat ≤ 0x7F ∨ (0x7F < c.toNat ∧ c.toNat ≤ 0x7FF) ∨ (0x7FF < c.toNat ∧ c.toNat ≤ 0xFFFF)
        ∨ 0xFFFF < c.toNat := by omega
  · obtain ⟨a, he, ha⟩ := encodeChar_one h
    exact ⟨a, [], he, hnot a (by omega)⟩
  · obtain ⟨a, b, he, ha, -⟩ := encodeChar_two h h'
    exact ⟨a, [b], he, hnot a (by omega)⟩
  · obtain ⟨a, b, d, he, ha, -⟩ := encodeChar_three h h'
    exact ⟨a, [b, d], he, hnot a (by omega)⟩
  · obtain ⟨a, b, d, e, he, ha, -⟩ := encodeChar_four h
    exact ⟨a, [b, d, e], he, hnot a (by omega)⟩

-- ================================================================= texts

theorem encode_cons (c : Char) (cs : List Char) :
    encode (c :: cs) = String.utf8EncodeChar c ++ encode cs := rfl

/-- An encoded text is read back, and what follows it is read by itself. -/
theorem lossy_encode_append (cs : List Char) (rest : List UInt8) :
    lossy (encode cs ++ rest) = cs ++ lossy rest := by
  induction cs with
  | nil => rfl
  | cons c cs ih =>
    have h := lossy_feed begins_nil (String.utf8EncodeChar c) (encode cs ++ rest)
    rw [feed_encodeChar, List.nil_append, ← List.append_assoc] at h
    rw [encode_cons, h]
    exact congrArg (c :: ·) ih

theorem unfinished_encode_append (cs : List Char) (rest : List UInt8) :
    unfinished (encode cs ++ rest) = unfinished rest := by
  induction cs with
  | nil => rfl
  | cons c cs ih =>
    have h := unfinished_feed begins_nil (String.utf8EncodeChar c) (encode cs ++ rest)
    rw [feed_encodeChar, List.nil_append, ← List.append_assoc] at h
    rw [encode_cons, h]
    exact ih

theorem lossy_encode (cs : List Char) : lossy (encode cs) = cs := by
  have h := lossy_encode_append cs []
  rwa [List.append_nil, lossy_nil, List.append_nil] at h

theorem encode_injective : encode.Injective := Function.LeftInverse.injective lossy_encode

/-- A byte list is well-formed if its text has these bytes. -/
theorem encode_lossy_eq_iff {bytes : List UInt8} :
    encode (lossy bytes) = bytes ↔ ∃ text, bytes = encode text := by
  constructor
  · exact fun h => ⟨lossy bytes, h.symm⟩
  · rintro ⟨text, rfl⟩
    rw [lossy_encode]

/-- A text that is not empty ends whatever was unfinished before it. -/
theorem lossy_append_encode (xs : List UInt8) {cs : List Char} (hcs : cs ≠ []) :
    lossy (xs ++ encode cs) = lossy xs ++ cs ∧ unfinished (xs ++ encode cs) = [] := by
  cases cs with
  | nil => exact absurd rfl hcs
  | cons c cs =>
    obtain ⟨a, tail, ha, htail⟩ := encodeChar_head c
    have hcut : continues (unfinished xs) a = false := by
      by_contra hne
      have h := isTail_of_continues (Bool.not_eq_false _ ▸ hne)
      rw [htail] at h
      cases h
    have he : encode (c :: cs) = a :: (tail ++ encode cs) := by
      rw [encode_cons, ha]
      rfl
    have hu := unfinished_encode_append (c :: cs) []
    rw [List.append_nil, unfinished_nil, he] at hu
    refine ⟨?_, ?_⟩
    · rw [he, lossy_cut hcut, ← he, lossy_encode]
    · rw [he, unfinished_cut hcut, hu]

end ScanTrace.Utf8
