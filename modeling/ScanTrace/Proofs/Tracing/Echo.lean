/-
Texts echoed byte by byte. A scanner that reads bytes hands them over one at
a time, by their numbers, and each is echoed and flushed by itself; so what
comes out of a text depends on how its bytes are taken and on how they are
put together again behind the flushes.

Two of the numbers stand for literals (ScanUnit.lean), and as bytes they
begin sixty-four characters each. Such a character is lost: its first byte
comes out as the placeholder of a literal, its second as a byte that follows
nothing. Every other character survives, ASCII as itself and the rest through
its bytes, one by one.

# Why nothing makes up for a loss

Echoed, a lost character is longer than it was, and no character gets
shorter, so a text with one in it comes out too long, whatever stands around
it (`flatMap_eq_flatMap_iff`). That holds of the bytes in memory and of the
text that a host hears, and each is got by going through the text character
by character (`Echoes`). For the host this takes that between characters
nothing is held: a character leaves nothing behind if it finds nothing
(`told_echo_char`).
-/
import ScanTrace.Proofs.Hosted.Collected
import ScanTrace.Proofs.Hosted.Flushes
import ScanTrace.Proofs.Hosted.Transcript
import ScanTrace.Proofs.Tracing.Levels
import ScanTrace.Proofs.Utf8.Encoding

namespace ScanTrace

open Session

/-- The trace calls of a scanner that reads a text one byte at a time. -/
def TraceCall.echoOf (level : Level) (text : String) : List TraceCall :=
  (bytesOf text).map fun b => .emitUnit level (.ofRaw (Int32.ofNat b.toNat))

/-- A character whose first byte is the number of a literal. -/
def LooksLiteral (c : Char) : Prop :=
  (0xC0 ≤ c.toNat ∧ c.toNat ≤ 0xFF) ∨ (0x4C0 ≤ c.toNat ∧ c.toNat ≤ 0x4FF)

instance : DecidablePred LooksLiteral := fun _ => inferInstanceAs (Decidable (_ ∨ _))

-- ======================================================= bytes by numbers

/-- How a byte of a scanner is written. -/
def SinkOp.echo (b : UInt8) : SinkOp :=
  if b.toNat = 0xD3 then .write .stdout "\"string\""
  else if b.toNat = 0xC3 then .write .stdout "'c'"
  else if b.toNat < 0x80 then .putChar .stdout (Char.ofNat b.toNat)
  else .writeBytes .stdout [b]

theorem ScanUnit.toInt_ofNat_byte (b : UInt8) : (Int32.ofNat b.toNat).toInt = b.toNat := by
  have hb := b.toNat_lt
  rw [Int32.toInt_ofNat_of_lt]
  omega

theorem ScanUnit.ofNat_eq_iff (b : UInt8) {raw : Int32} {n : Nat} (hraw : raw.toInt = n) :
    Int32.ofNat b.toNat = raw ↔ b.toNat = n := by
  rw [← Int32.toInt_inj, toInt_ofNat_byte, hraw, Int.ofNat_inj]

/-- What a tracer asks of the sink for a byte: one thing to write, and a flush. -/
theorem Tracer.requests_byte (t : Tracer) (level : Level) (b : UInt8) :
    t.requests (.emitUnit level (.ofRaw (Int32.ofNat b.toNat)))
      = [.echo b, .flush .stdout] := by
  have hb := b.toNat_lt
  have hstring : Int32.ofNat b.toNat = ScanUnit.stringMark ↔ b.toNat = 0xD3 :=
    ScanUnit.ofNat_eq_iff b rfl
  have hchar : Int32.ofNat b.toNat = ScanUnit.charMark ↔ b.toNat = 0xC3 :=
    ScanUnit.ofNat_eq_iff b rfl
  unfold ScanUnit.ofRaw SinkOp.echo
  simp only [hstring, hchar, ScanUnit.toInt_ofNat_byte]
  by_cases h1 : b.toNat = 0xD3
  · simp only [if_pos h1]
    rfl
  by_cases h2 : b.toNat = 0xC3
  · simp only [if_neg h1, if_pos h2]
    rfl
  by_cases h3 : b.toNat < 0x80
  · have hlow : ¬ (0x80 ≤ b.toNat && b.toNat ≤ 0xFF) = true := by
      rw [Bool.and_eq_true, decide_eq_true_iff, decide_eq_true_iff]
      omega
    have hvalid : b.toNat.isValidChar := .inl (by omega)
    simp only [if_neg h1, if_neg h2, if_pos h3, if_neg hlow, if_pos hvalid]
    rfl
  · have hhigh : (0x80 ≤ b.toNat && b.toNat ≤ 0xFF) = true := by
      rw [Bool.and_eq_true, decide_eq_true_iff, decide_eq_true_iff]
      omega
    simp only [if_neg h1, if_neg h2, if_neg h3, if_pos hhigh, UInt8.ofNat_toNat]
    rfl

/-- What the echo of a text asks of the sink. -/
def SinkOp.echoAll (bytes : List UInt8) : List SinkOp :=
  bytes.flatMap fun b => [.echo b, .flush .stdout]

theorem Tracer.performAll_echoOf {t : Tracer} {level : Level} (hlevel : t.isEnabled level = true)
    {st : Session} (hopen : st.isSealed t.console = false) (text : String) :
    t.performAll idle st (TraceCall.echoOf level text)
      = SinkOp.performAll idle st (SinkOp.echoAll (bytesOf text)) := by
  have hcall : ∀ call ∈ TraceCall.echoOf level text,
      t.isEnabled call.level = true ∧ t.rendered call = [] := by
    intro call hcall
    obtain ⟨b, -, rfl⟩ := List.mem_map.mp hcall
    exact ⟨hlevel, rfl⟩
  have hrequests : (TraceCall.echoOf level text).flatMap t.requests
      = SinkOp.echoAll (bytesOf text) := by
    unfold TraceCall.echoOf SinkOp.echoAll
    rw [List.flatMap_map]
    exact List.flatMap_congr fun b _ => t.requests_byte level b
  rw [performAll_of_enabled hopen (fun call hmem => (hcall call hmem).1)
    (fun call hmem => (hcall call hmem).2), hrequests]

-- ============================================================== characters

/-- What a host that takes text only hears of a character. -/
def heardAs (c : Char) : List Char :=
  if 0x4C0 ≤ c.toNat ∧ c.toNat ≤ 0x4FF then "\"string\"".toList ++ [Utf8.replacement]
  else if 0xC0 ≤ c.toNat ∧ c.toNat ≤ 0xFF then "'c'".toList ++ [Utf8.replacement]
  else [c]

theorem heardAs_of_not_looksLiteral {c : Char} (hc : ¬ LooksLiteral c) : heardAs c = [c] := by
  unfold LooksLiteral at hc
  unfold heardAs
  rw [if_neg (by omega), if_neg (by omega)]

/-- How the bytes of a character are echoed. -/
inductive Echoes (c : Char) : Prop where
  /-- The only byte of a character is the character. -/
  | ascii (b : UInt8) : String.utf8EncodeChar c = [b] → SinkOp.echo b = .putChar .stdout c →
      ¬ LooksLiteral c → Echoes c
  | bytes : (∀ b ∈ String.utf8EncodeChar c, SinkOp.echo b = .writeBytes .stdout [b]) →
      ¬ LooksLiteral c → Echoes c
  /-- The first byte is taken for a literal, and the second follows nothing. -/
  | literal (mark tail : UInt8) (text : String) : String.utf8EncodeChar c = [mark, tail] →
      SinkOp.echo mark = .write .stdout text → SinkOp.echo tail = .writeBytes .stdout [tail] →
      Utf8.isTail tail = true → heardAs c = text.toList ++ [Utf8.replacement] →
      2 ≤ text.toList.length → LooksLiteral c → Echoes c

theorem SinkOp.echo_of_le {b : UInt8} (hb : 0x80 ≤ b.toNat) (hstring : b.toNat ≠ 0xD3)
    (hchar : b.toNat ≠ 0xC3) : SinkOp.echo b = .writeBytes .stdout [b] := by
  unfold SinkOp.echo
  rw [if_neg hstring, if_neg hchar, if_neg (by omega)]

/-- Characters of two bytes are those that can be lost: their first byte tells. -/
theorem echoes_of_two {c : Char} (h : 0x7F < c.toNat) (h' : c.toNat ≤ 0x7FF) : Echoes c := by
  obtain ⟨a, b, he, ha, hb⟩ := Utf8.encodeChar_two h h'
  have hecho : SinkOp.echo b = .writeBytes .stdout [b] :=
    SinkOp.echo_of_le (by omega) (by omega) (by omega)
  have htail : Utf8.isTail b = true := by
    rw [Utf8.isTail_iff]
    omega
  by_cases hstring : a.toNat = 0xD3
  · have hc : 0x4C0 ≤ c.toNat ∧ c.toNat ≤ 0x4FF := by omega
    exact .literal a b "\"string\"" he (if_pos hstring) hecho htail (if_pos hc) (by decide)
      (.inr hc)
  by_cases hchar : a.toNat = 0xC3
  · have hc : 0xC0 ≤ c.toNat ∧ c.toNat ≤ 0xFF := by omega
    have hheard : heardAs c = "'c'".toList ++ [Utf8.replacement] := by
      unfold heardAs
      rw [if_neg (by omega), if_pos hc]
    have hwrite : SinkOp.echo a = .write .stdout "'c'" := by
      unfold SinkOp.echo
      rw [if_neg hstring, if_pos hchar]
    exact .literal a b "'c'" he hwrite hecho htail hheard (by decide) (.inl hc)
  refine .bytes ?_ ?_
  · rw [he, List.forall_mem_cons, List.forall_mem_singleton]
    exact ⟨SinkOp.echo_of_le (by omega) hstring hchar, hecho⟩
  · unfold LooksLiteral
    omega

theorem echoes (c : Char) : Echoes c := by
  have hv := Utf8.toNat_valid c
  obtain h | ⟨h, h'⟩ | ⟨h, h'⟩ | h :
      c.toNat ≤ 0x7F ∨ (0x7F < c.toNat ∧ c.toNat ≤ 0x7FF) ∨ (0x7FF < c.toNat ∧ c.toNat ≤ 0xFFFF)
        ∨ 0xFFFF < c.toNat := by omega
  · obtain ⟨a, he, ha⟩ := Utf8.encodeChar_one h
    refine .ascii a he ?_ ?_
    · unfold SinkOp.echo
      rw [if_neg (by omega), if_neg (by omega), if_pos (by omega), ha, Char.ofNat_toNat]
    · unfold LooksLiteral
      omega
  · exact echoes_of_two h h'
  · obtain ⟨a, b, d, he, ha, hb, hd⟩ := Utf8.encodeChar_three h h'
    refine .bytes ?_ ?_
    · rw [he, List.forall_mem_cons, List.forall_mem_cons, List.forall_mem_singleton]
      refine ⟨SinkOp.echo_of_le ?_ ?_ ?_, SinkOp.echo_of_le ?_ ?_ ?_, SinkOp.echo_of_le ?_ ?_ ?_⟩
        <;> omega
    · unfold LooksLiteral
      omega
  · obtain ⟨a, b, d, e, he, ha, hb, hd, he'⟩ := Utf8.encodeChar_four h
    refine .bytes ?_ ?_
    · rw [he, List.forall_mem_cons, List.forall_mem_cons, List.forall_mem_cons,
        List.forall_mem_singleton]
      refine ⟨SinkOp.echo_of_le ?_ ?_ ?_, SinkOp.echo_of_le ?_ ?_ ?_, SinkOp.echo_of_le ?_ ?_ ?_,
        SinkOp.echo_of_le ?_ ?_ ?_⟩ <;> omega
    · unfold LooksLiteral
      omega

-- ================================================================== losses

/-- Two ways to spell a list, item by item, where one is the longer wherever they differ:
they come to the same only if they nowhere differ. -/
theorem flatMap_eq_flatMap_iff {α β : Type} {f g : α → List β} {P : α → Prop}
    (hsame : ∀ a, P a → f a = g a) (hlonger : ∀ a, ¬ P a → (g a).length < (f a).length)
    (xs : List α) : xs.flatMap f = xs.flatMap g ↔ ∀ a ∈ xs, P a := by
  have hle : ∀ xs : List α, (xs.flatMap g).length ≤ (xs.flatMap f).length := by
    intro xs
    induction xs with
    | nil => exact Nat.le_refl _
    | cons a xs ih =>
      rw [List.flatMap_cons, List.flatMap_cons, List.length_append, List.length_append]
      refine Nat.add_le_add ?_ ih
      by_cases ha : P a
      · rw [hsame a ha]
      · exact (hlonger a ha).le
  constructor
  · intro heq a ha
    by_contra hP
    obtain ⟨before, after, rfl⟩ := List.append_of_mem ha
    have hlength := congrArg List.length heq
    simp only [List.flatMap_append, List.flatMap_cons, List.length_append] at hlength
    have hbefore := hle before
    have hafter := hle after
    have hlost := hlonger a hP
    omega
  · exact fun h => List.flatMap_congr fun a ha => hsame a (h a ha)

-- ================================================================== memory

/-- What memory collects of a character. -/
def collectedAs (c : Char) : List UInt8 :=
  (String.utf8EncodeChar c).flatMap fun b => (SinkOp.echo b).bytesOn .stdout

theorem collectedAs_of_not_looksLiteral {c : Char} (hc : ¬ LooksLiteral c) :
    collectedAs c = String.utf8EncodeChar c := by
  unfold collectedAs
  cases echoes c with
  | ascii b he hecho =>
    rw [he, List.flatMap_singleton, hecho]
    show Utf8.encode [c] = [b]
    rw [← he]
    exact List.flatMap_singleton ..
  | bytes hraw =>
    have hbytes : ∀ b ∈ String.utf8EncodeChar c, (SinkOp.echo b).bytesOn .stdout = [b] := by
      intro b hb
      rw [hraw b hb]
      rfl
    rw [List.flatMap_congr hbytes]
    exact List.flatMap_singleton' _
  | literal _ _ _ _ _ _ _ _ _ hlooks => exact absurd hlooks hc

/-- A text is at least as long in bytes as it is in characters. -/
theorem length_le_length_encode (cs : List Char) : cs.length ≤ (Utf8.encode cs).length := by
  induction cs with
  | nil => exact Nat.le_refl _
  | cons c cs ih =>
    obtain ⟨a, rest, he, -⟩ := Utf8.encodeChar_head c
    rw [Utf8.encode_cons, he, List.length_append, List.length_cons, List.length_cons]
    omega

theorem length_collectedAs {c : Char} (hc : LooksLiteral c) :
    (String.utf8EncodeChar c).length < (collectedAs c).length := by
  unfold collectedAs
  cases echoes c with
  | ascii _ _ _ hnot => exact absurd hc hnot
  | bytes _ hnot => exact absurd hc hnot
  | literal mark tail text he hmark htail _ _ hlong =>
    have hbytes := length_le_length_encode text.toList
    rw [he, List.flatMap_cons, List.flatMap_singleton, hmark, htail, List.length_append]
    show 2 < (Utf8.encode text.toList).length + 1
    omega

/-- Memory collects the bytes of a text exactly if none of its characters looks like
a literal. -/
theorem bytesOn_echoAll_eq_iff (cs : List Char) :
    (SinkOp.echoAll (Utf8.encode cs)).flatMap (·.bytesOn .stdout) = Utf8.encode cs
      ↔ ∀ c ∈ cs, ¬ LooksLiteral c := by
  have hchars : (SinkOp.echoAll (Utf8.encode cs)).flatMap (·.bytesOn .stdout)
      = cs.flatMap collectedAs := by
    unfold SinkOp.echoAll Utf8.encode collectedAs
    rw [List.flatMap_assoc, List.flatMap_assoc]
    simp [SinkOp.bytesOn]
  rw [hchars]
  refine flatMap_eq_flatMap_iff (fun c hc => collectedAs_of_not_looksLiteral hc) ?_ cs
  exact fun c hc => length_collectedAs (Classical.not_not.mp hc)

-- =============================================================== text hosts

namespace Transcript

variable {t : Transcript}

/-- The echo of a byte, as far as standard output is concerned. -/
def echo (t : Transcript) (b : UInt8) : Transcript := t.add .stdout (.echo b)

theorem foldl_echoAll (bytes : List UInt8) (t : Transcript) :
    (SinkOp.echoAll bytes).foldl (add .stdout) t = bytes.foldl echo t := by
  unfold SinkOp.echoAll
  rw [List.foldl_flatMap]
  rfl

/-- Between sequences a text adds itself. -/
theorem told_say_of_unfinished (ht : Utf8.unfinished t.opened = []) (cs : List Char) :
    (t.say cs).told = t.told ++ cs := by
  rw [told_say, told_close, ht, Utf8.lossy_nil, List.append_nil]

/-- Between sequences bytes add what they come to by themselves. -/
theorem told_open_of_unfinished (ht : Utf8.unfinished t.opened = []) (bytes : List UInt8) :
    ({ t with opened := t.opened ++ bytes } : Transcript).told = t.told ++ Utf8.settled bytes
      ∧ Utf8.unfinished (t.opened ++ bytes) = Utf8.unfinished bytes := by
  unfold told
  rw [Utf8.settled_append, Utf8.unfinished_append, ht, List.nil_append, List.append_assoc]
  exact ⟨rfl, rfl⟩

theorem foldl_echo_raw {bytes : List UInt8}
    (hraw : ∀ b ∈ bytes, SinkOp.echo b = .writeBytes .stdout [b]) (t : Transcript) :
    bytes.foldl echo t = { t with opened := t.opened ++ bytes } := by
  induction bytes generalizing t with
  | nil => rw [List.foldl_nil, List.append_nil]
  | cons b bytes ih =>
    have hb : t.echo b = { t with opened := t.opened ++ [b] } := by
      unfold echo
      rw [hraw b List.mem_cons_self]
      rfl
    rw [List.foldl_cons, ih (fun a ha => hraw a (List.mem_cons_of_mem _ ha)), hb,
      List.append_assoc]
    rfl

/-- The bytes of a character leave nothing behind if they find nothing. -/
theorem told_echo_char (ht : Utf8.unfinished t.opened = []) (c : Char) :
    ((String.utf8EncodeChar c).foldl echo t).told = t.told ++ heardAs c
      ∧ Utf8.unfinished ((String.utf8EncodeChar c).foldl echo t).opened = [] := by
  cases echoes c with
  | ascii b he hecho hc =>
    have hsay : [b].foldl echo t = t.say [c] := by
      show t.add .stdout (.echo b) = _
      rw [hecho]
      rfl
    rw [he, hsay, heardAs_of_not_looksLiteral hc]
    exact ⟨told_say_of_unfinished ht [c], Utf8.unfinished_nil⟩
  | bytes hraw hc =>
    have hwhole : Utf8.settled (String.utf8EncodeChar c) = [c]
        ∧ Utf8.unfinished (String.utf8EncodeChar c) = [] := by
      rw [← Utf8.drain_fst, ← Utf8.drain_snd]
      unfold Utf8.drain
      rw [Utf8.feed_encodeChar]
      exact ⟨rfl, rfl⟩
    obtain ⟨htold, hopened⟩ := told_open_of_unfinished ht (String.utf8EncodeChar c)
    rw [foldl_echo_raw hraw, heardAs_of_not_looksLiteral hc, ← hwhole.1, ← hwhole.2]
    exact ⟨htold, hopened⟩
  | literal mark tail text he hmark htail hstray hheard =>
    have hstart : Utf8.settled [tail] = [Utf8.replacement] ∧ Utf8.unfinished [tail] = [] := by
      rw [← Utf8.drain_fst, ← Utf8.drain_snd]
      unfold Utf8.drain Utf8.feed Utf8.step
      rw [Utf8.start_of_isTail hstray]
      exact ⟨rfl, rfl⟩
    have hpair : [mark, tail].foldl echo t
        = { t.say text.toList with opened := (t.say text.toList).opened ++ [tail] } := by
      show (t.add .stdout (.echo mark)).add .stdout (.echo tail) = _
      rw [hmark, htail]
      rfl
    have hsaid : Utf8.unfinished (t.say text.toList).opened = [] := Utf8.unfinished_nil
    obtain ⟨htold, hopened⟩ := told_open_of_unfinished hsaid [tail]
    rw [he, hpair, hheard, htold, told_say_of_unfinished ht, hstart.1, List.append_assoc]
    exact ⟨rfl, hopened.trans hstart.2⟩

theorem told_echo (ht : Utf8.unfinished t.opened = []) (cs : List Char) :
    ((Utf8.encode cs).foldl echo t).told = t.told ++ cs.flatMap heardAs := by
  induction cs generalizing t with
  | nil => exact (List.append_nil _).symm
  | cons c cs ih =>
    obtain ⟨htold, hopened⟩ := told_echo_char ht c
    rw [Utf8.encode_cons, List.foldl_append, ih hopened, htold, List.flatMap_cons,
      List.append_assoc]

end Transcript

theorem length_heardAs {c : Char} (hc : LooksLiteral c) : 1 < (heardAs c).length := by
  cases echoes c with
  | ascii _ _ _ hnot => exact absurd hc hnot
  | bytes _ hnot => exact absurd hc hnot
  | literal mark tail text _ _ _ _ hheard hlong =>
    rw [hheard, List.length_append]
    omega

theorem flatMap_heardAs_eq_iff (cs : List Char) :
    cs.flatMap heardAs = cs ↔ ∀ c ∈ cs, ¬ LooksLiteral c := by
  have hcs : cs.flatMap (fun c => [c]) = cs := List.flatMap_singleton' cs
  refine Iff.trans (by rw [hcs]) (flatMap_eq_flatMap_iff (g := fun c => [c])
    (fun c hc => heardAs_of_not_looksLiteral hc) ?_ cs)
  exact fun c hc => length_heardAs (Classical.not_not.mp hc)

-- =================================================================== runs

theorem SinkOp.flushesOn_echo (s : Stream) (b : UInt8) : (SinkOp.echo b).flushesOn s = 0 := by
  unfold SinkOp.echo
  split_ifs <;> rfl

/-- There is one flush for each byte, of standard output. -/
theorem SinkOp.foldl_count_echoAll {count : SinkOp → Nat} (hecho : ∀ b, count (.echo b) = 0)
    (hflush : count (.flush .stdout) = 1) (bytes : List UInt8) (n : Nat) :
    (echoAll bytes).foldl (fun n op => n + count op) n = n + bytes.length := by
  induction bytes generalizing n with
  | nil => rfl
  | cons b bytes ih =>
    show (echoAll bytes).foldl _ (n + count (.echo b) + count (.flush .stdout)) = _
    rw [ih, hecho, hflush, List.length_cons]
    omega

section Runs

variable {st : Session} (bytes : List UInt8)

/-- What memory makes of an echo. -/
theorem memory_echoAll {dir : Option String} (hsink : st.sink = some (.memory dir)) :
    let after := SinkOp.performAll idle st (SinkOp.echoAll bytes)
    after.store.written.get .stdout
        = st.store.written.get .stdout ++ (SinkOp.echoAll bytes).flatMap (·.bytesOn .stdout)
      ∧ after.store.flushes = st.store.flushes + bytes.length := by
  intro after
  have hflushes := (tracks_flushes_memory dir).performAll hsink rfl (SinkOp.echoAll bytes)
  refine ⟨SinkOp.written_performAll_memory hsink .stdout _, hflushes.trans ?_⟩
  refine SinkOp.foldl_count_echoAll ?_ rfl bytes _
  intro b
  rw [SinkOp.flushesOn_echo, SinkOp.flushesOn_echo]

/-- What a host that takes text only makes of an echo, if nothing is held for it. -/
theorem host_echoAll {h : Host} (hsink : st.sink = some (.host h)) (ht : h.textOnly = true)
    (hc : h.Callable) (hf : h.flush ≠ .notCallable) (hheld : st.store.held.get .stdout = []) :
    let after := SinkOp.performAll idle st (SinkOp.echoAll bytes)
    after.heard .stdout = st.heard .stdout ++ (bytes.foldl Transcript.echo {}).told
      ∧ after.flushCalls .stdout = st.flushCalls .stdout + bytes.length := by
  intro after
  have hfollows := (tracks_follows ht hc).performAll hsink (.afresh hheld) (SinkOp.echoAll bytes)
  have hflushes := (tracks_flushCalls hf .stdout).performAll hsink rfl (SinkOp.echoAll bytes)
  refine ⟨?_, hflushes.trans ?_⟩
  · rw [← Transcript.foldl_echoAll]
    exact hfollows.heard
  · exact SinkOp.foldl_count_echoAll (SinkOp.flushesOn_echo .stdout) rfl bytes _

end Runs

/-- A scanner hands over the bytes of a text one at a time, at a level that is traced
and on a console that is not sealed. Each byte is one output and one flush of
standard output. What memory collects are the bytes of the text, and what a
host hears that takes text only, does not call back and has nothing held for
it is the text, exactly if no character of it begins with the number of a
literal. -/
theorem bytewise_echo_iff (t : Tracer) {level : Level} (hlevel : t.isEnabled level = true)
    {st : Session} (hopen : st.isSealed t.console = false) (text : String) :
    let after := t.performAll idle st (TraceCall.echoOf level text)
    let survives := ∀ c ∈ text.toList, ¬ LooksLiteral c
    after = SinkOp.performAll idle st (SinkOp.echoAll (bytesOf text))
      ∧ (∀ dir, st.sink = some (.memory dir) →
          (after.store.written.get .stdout = st.store.written.get .stdout ++ bytesOf text
              ↔ survives)
            ∧ after.store.flushes = st.store.flushes + (bytesOf text).length)
      ∧ ∀ h : Host, st.sink = some (.host h) → h.textOnly = true → h.Callable →
          h.flush ≠ .notCallable → st.store.held.get .stdout = [] →
          (after.heard .stdout = st.heard .stdout ++ text.toList ↔ survives)
            ∧ after.flushCalls .stdout = st.flushCalls .stdout + (bytesOf text).length := by
  intro after survives
  have hafter : after = SinkOp.performAll idle st (SinkOp.echoAll (bytesOf text)) :=
    Tracer.performAll_echoOf hlevel hopen text
  refine ⟨hafter, ?_, ?_⟩
  · intro dir hsink
    obtain ⟨hwritten, hflushes⟩ := memory_echoAll (bytesOf text) hsink
    rw [hafter]
    refine ⟨?_, hflushes⟩
    rw [hwritten, List.append_cancel_left_eq]
    exact bytesOn_echoAll_eq_iff text.toList
  · intro h hsink ht hc hf hheld
    obtain ⟨hheard, hflushes⟩ := host_echoAll (bytesOf text) hsink ht hc hf hheld
    rw [hafter]
    refine ⟨?_, hflushes⟩
    have htold := Transcript.told_echo (t := {}) Utf8.unfinished_nil text.toList
    rw [Transcript.told_empty, List.nil_append] at htold
    rw [hheard, bytesOf, htold, List.append_cancel_left_eq]
    exact flatMap_heardAs_eq_iff text.toList

/-- Cyrillic comes through as it was, in memory and at a host, unless it is one of the
letters that begin with the number of a string literal. -/
theorem bytewise_echo_of_cyrillic :
    let t : Tracer := { console := .main, levels := .full, fields := .full }
    let h : Host := { write := .returns none, flush := .returns none, exit := .returns none }
    let echoed : Sink → String → Session := fun sink text =>
      t.performAll idle { env := { tempDir := "/tmp" }, sink := some sink }
        (TraceCall.echoOf .raw text)
    (echoed (.memory none) "Жук").store.written.get .stdout = bytesOf "Жук"
      ∧ (echoed (.memory none) "Жук").store.flushes = 6
      ∧ (echoed (.host h) "Жук").heard .stdout = "Жук".toList
      ∧ (echoed (.host h) "Ӂук").heard .stdout ≠ "Ӂук".toList
      ∧ (echoed (.host h) "Ӂук").flushCalls .stdout = 6 := by
  intro t h echoed
  have hlevel : t.isEnabled .raw = true := by decide
  have hecho := fun sink text => bytewise_echo_iff t hlevel
    (show Session.isSealed { env := { tempDir := "/tmp" }, sink := some sink } t.console = false
      from rfl) text
  obtain ⟨-, hmemory, -⟩ := hecho (.memory none) "Жук"
  obtain ⟨hwritten, hflushes⟩ := hmemory none rfl
  obtain ⟨-, -, hhost⟩ := hecho (.host h) "Жук"
  obtain ⟨hheard, -⟩ := hhost h rfl rfl ⟨by decide, by decide⟩ (by decide) rfl
  obtain ⟨-, -, hother⟩ := hecho (.host h) "Ӂук"
  obtain ⟨hlost, hcalls⟩ := hother h rfl rfl ⟨by decide, by decide⟩ (by decide) rfl
  have hsurvives : ∀ c ∈ "Жук".toList, ¬ LooksLiteral c := by simp [LooksLiteral]
  refine ⟨hwritten.mpr hsurvives, hflushes, hheard.mpr hsurvives, ?_, hcalls⟩
  intro heq
  exact hlost.mp heq 'Ӂ' (by simp) (by decide)

end ScanTrace
