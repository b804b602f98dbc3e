/-
Draining in rounds. The decoder settles a byte list one byte after the other;
the same can be got from a checker that only ever looks at whole lists. Each
round has what is left checked. If it is well-formed, it is all text and
nothing is kept. If it has a flaw, what is in front of the flaw is text; then
either the list breaks off there, and the rest is kept, or the bytes that are
ill-formed together are worth one replacement character and the next round
goes on behind them.

`Rounds` is this loop, with all that could stop it short: a round is taken only
if the lengths that the checker names are there. So a run of rounds is more
than a result, and that there is one for every byte list is to be shown
(`rounds_drain`): a round that is not the last leaves fewer bytes, since no
ill-formed part is empty. That there is no other result is `Rounds.eq_drain`,
by the invariant of a round: the text so far and what the decoder would settle
of the rest are together what it settles of the whole.

That draining can be resumed is not seen from the rounds: a piece that is cut
off may have its flaws elsewhere than the whole. It is a law of the decoder,
whose run over two pieces is two runs, and carries over to the rounds because
they give the same (`drains_iff`).
-/
import ScanTrace.Proofs.Utf8.Flaws

namespace ScanTrace.Utf8

variable {check : Checker}

-- ================================================================== rounds

/-- The text of a byte list that is expected to be well-formed. -/
def Checker.text (check : Checker) (bytes : List UInt8) : List Char :=
  match check bytes with
  | .ok text => text
  | .error _ => []

/-- The rounds that are made of the rest of a byte list, behind the text so far: up to the
text in the end and the bytes that are kept. -/
inductive Rounds (check : Checker) :
    List Char → List UInt8 → List Char → List UInt8 → Prop
  /-- What is left is text. -/
  | finish {text rest last} : check rest = .ok last → Rounds check text rest (text ++ last) []
  /-- What is left breaks off. -/
  | keep {text rest start} : check rest = .error ⟨start, none⟩ → start ≤ rest.length →
      Rounds check text rest (text ++ check.text (rest.take start)) (rest.drop start)
  /-- There is an ill-formed part, and more may follow it. -/
  | goOn {text rest start length result kept} : check rest = .error ⟨start, some length⟩ →
      start ≤ rest.length → length ≤ (rest.drop start).length →
      Rounds check (text ++ check.text (rest.take start) ++ [replacement])
        ((rest.drop start).drop length) result kept →
      Rounds check text rest result kept

/-- What a byte list is drained to in rounds. -/
abbrev Drains (check : Checker) (bytes : List UInt8) (text : List Char) (kept : List UInt8) :
    Prop := Rounds check [] bytes text kept

-- =============================================================== one round

/-- Text in front is drained as it is. -/
theorem drain_encode_append (cs : List Char) (rest : List UInt8) :
    drain (encode cs ++ rest) = (cs ++ (drain rest).1, (drain rest).2) := by
  have hu : unfinished (encode cs) = [] := by
    have h := unfinished_encode_append cs []
    rwa [List.append_nil, unfinished_nil] at h
  have hsettled : settled (encode cs) = cs := by
    unfold settled
    rw [hu, lossy_encode]
    rfl
  refine Prod.ext ?_ ?_
  · rw [drain_fst, drain_fst, settled_append, hsettled, hu, List.nil_append]
  · rw [drain_snd, drain_snd, unfinished_encode_append]

theorem drain_encode (cs : List Char) : drain (encode cs) = (cs, []) := by
  have h := drain_encode_append cs []
  have hnothing : drain [] = ([], []) := rfl
  rwa [List.append_nil, hnothing, List.append_nil] at h

theorem start_of_not_opens {b : UInt8} (h : ¬ Opens [b]) : start b = ([none], []) := by
  unfold start
  split
  · rfl
  · next hw =>
    have hcomplete : Completes b [] := ⟨hw.symm, rfl⟩
    refine absurd ⟨character [b], ?_⟩ h
    rw [encodeChar_character hcomplete]
  · next h0 h1 =>
    have h0' : width b ≠ 0 := h0
    have h1' : width b ≠ 1 := h1
    exact absurd (begins_singleton (by omega)).opens h

theorem drain_of_not_continues {held : List UInt8} {b : UInt8} (hbegins : Begins held)
    (hne : held ≠ []) (hb : continues held b = false) (rest : List UInt8) :
    drain (held ++ b :: rest) = (replacement :: (drain (b :: rest)).1, (drain (b :: rest)).2) := by
  have hheld : feed [] held = ([], held) := by
    refine Prod.ext (feed_of_begins hbegins) ?_
    exact feed_snd_of_fst_eq_nil (feed_of_begins hbegins)
  obtain ⟨lead, more, rfl⟩ := List.exists_cons_of_ne_nil hne
  have hfeed : feed (lead :: more) (b :: rest)
      = (none :: (feed [] (b :: rest)).1, (feed [] (b :: rest)).2) := by
    rw [feed, step_of_not_continues hb]
    rfl
  unfold drain
  rw [feed_append, hheld, hfeed]
  rfl

/-- An ill-formed part at the front is drained to one replacement character. -/
theorem drain_of_illFormed {bytes : List UInt8} {n : Nat} (hstuck : Stuck bytes)
    (hopens : ¬ Opens bytes) (hn : IsGreatest (illFormedLengths bytes) n) :
    1 ≤ n ∧ n ≤ bytes.length
      ∧ drain bytes = (replacement :: (drain (bytes.drop n)).1, (drain (bytes.drop n)).2) := by
  obtain ⟨⟨hle, hpart⟩, hmax⟩ := hn
  obtain ⟨b, rest, rfl⟩ : ∃ b rest, bytes = b :: rest := by
    refine List.exists_cons_of_ne_nil ?_
    rintro rfl
    exact hopens begins_nil.opens
  have hpos : 1 ≤ n := hmax ⟨by simp, .inl rfl⟩
  refine ⟨hpos, hle, ?_⟩
  by_cases hpart' : Opens ((b :: rest).take n)
  · -- the part begins a character, and the byte behind it does not go on with it
    have hbegins := hstuck.begins (List.take_prefix n _) hpart'
    have hlt : n < (b :: rest).length := by
      refine lt_of_le_of_ne hle ?_
      rintro rfl
      rw [List.take_length] at hpart'
      exact hopens hpart'
    have hbehind : (b :: rest).drop n = (b :: rest)[n] :: (b :: rest).drop (n + 1) :=
      List.drop_eq_getElem_cons hlt
    have hstops : continues ((b :: rest).take n) (b :: rest)[n] = false := by
      by_contra hgoes
      have hlonger : Opens ((b :: rest).take (n + 1)) := by
        rw [← List.take_concat_get' _ n hlt]
        exact hbegins.opens_concat (Bool.not_eq_false _ ▸ hgoes)
      have := hmax ⟨hlt, .inr hlonger⟩
      omega
    have hne : (b :: rest).take n ≠ [] := by
      rw [ne_eq, List.take_eq_nil_iff, not_or]
      exact ⟨Nat.one_le_iff_ne_zero.mp hpos, List.cons_ne_nil b rest⟩
    have hdrain := drain_of_not_continues hbegins hne hstops ((b :: rest).drop (n + 1))
    rwa [← hbehind, List.take_append_drop] at hdrain
  · -- the part is one byte, which begins no character
    obtain rfl := hpart.resolve_right hpart'
    have hstart : start b = ([none], []) := start_of_not_opens hpart'
    unfold drain
    simp [feed, step, hstart]

namespace Checker.Reliable

variable {rest : List UInt8} {start : Nat} {length? : Option Nat}

theorem text_encode (hc : check.Reliable) (text : List Char) : check.text (encode text) = text := by
  unfold Checker.text
  rw [hc.ok_iff.mpr rfl]

/-- A list that is text is drained to all of it. -/
theorem drain_of_ok (hc : check.Reliable) {text : List Char} (h : check rest = .ok text) :
    drain rest = (text, []) := by
  rw [hc.ok_iff.mp h, drain_encode]

/-- Of a list with a flaw, what is in front of the flaw is drained to its text. -/
theorem drain_of_flaw (hc : check.Reliable) (h : check rest = .error ⟨start, length?⟩) :
    start ≤ rest.length ∧ Stuck (rest.drop start)
      ∧ drain rest = (check.text (rest.take start) ++ (drain (rest.drop start)).1,
          (drain (rest.drop start)).2) := by
  have hstart := hc.start h
  obtain ⟨hle, text, htext⟩ := hstart.1
  refine ⟨hle, stuck_of_isGreatest hstart, ?_⟩
  have hwhole : encode text ++ rest.drop start = rest := by
    rw [← htext, List.take_append_drop]
  rw [htext, hc.text_encode, ← drain_encode_append, hwhole]

/-- A list that breaks off keeps what is behind its text. -/
theorem drain_of_breaksOff (hc : check.Reliable) (h : check rest = .error ⟨start, none⟩) :
    start ≤ rest.length
      ∧ drain rest = (check.text (rest.take start), rest.drop start) := by
  obtain ⟨hle, hstuck, hdrain⟩ := hc.drain_of_flaw h
  have hbegins := hstuck.begins List.prefix_rfl (hc.breaksOff h rfl)
  refine ⟨hle, ?_⟩
  rw [hdrain, drain_of_begins hbegins, List.append_nil]

/-- A list with an ill-formed part goes on behind it, and that is further on. -/
theorem drain_of_part (hc : check.Reliable) {length : Nat}
    (h : check rest = .error ⟨start, some length⟩) :
    start ≤ rest.length ∧ 1 ≤ length ∧ length ≤ (rest.drop start).length
      ∧ drain rest = (check.text (rest.take start)
          ++ replacement :: (drain ((rest.drop start).drop length)).1,
          (drain ((rest.drop start).drop length)).2) := by
  obtain ⟨hle, hstuck, hdrain⟩ := hc.drain_of_flaw h
  obtain ⟨hopens, hlength⟩ := hc.illFormed h rfl
  obtain ⟨hpos, hle', hpart⟩ := drain_of_illFormed hstuck hopens hlength
  refine ⟨hle, hpos, hle', ?_⟩
  rw [hdrain, hpart]

end Checker.Reliable

-- ================================================================ all rounds

/-- The rounds end, and with what the decoder makes of the rest. -/
theorem rounds_drain (hc : check.Reliable) (text : List Char) (rest : List UInt8) :
    Rounds check text rest (text ++ (drain rest).1) (drain rest).2 := by
  match hcheck : check rest with
  | .ok last =>
    rw [hc.drain_of_ok hcheck]
    exact .finish hcheck
  | .error ⟨start, none⟩ =>
    obtain ⟨hle, hdrain⟩ := hc.drain_of_breaksOff hcheck
    rw [hdrain]
    exact .keep hcheck hle
  | .error ⟨start, some length⟩ =>
    obtain ⟨hle, hpos, hle', hdrain⟩ := hc.drain_of_part hcheck
    have hlater := rounds_drain hc (text ++ check.text (rest.take start) ++ [replacement])
      ((rest.drop start).drop length)
    rw [hdrain]
    refine .goOn hcheck hle hle' ?_
    simpa using hlater
termination_by rest.length
decreasing_by
  rw [List.length_drop]
  rw [List.length_drop] at hle' ⊢
  omega

/-- The rounds end with nothing else. -/
theorem Rounds.eq_drain (hc : check.Reliable) {text result : List Char}
    {rest kept : List UInt8} (h : Rounds check text rest result kept) :
    result = text ++ (drain rest).1 ∧ kept = (drain rest).2 := by
  induction h with
  | finish hcheck =>
    rw [hc.drain_of_ok hcheck]
    exact ⟨rfl, rfl⟩
  | keep hcheck hle =>
    obtain ⟨-, hdrain⟩ := hc.drain_of_breaksOff hcheck
    rw [hdrain]
    exact ⟨rfl, rfl⟩
  | goOn hcheck hle hle' hlater ih =>
    obtain ⟨-, -, -, hdrain⟩ := hc.drain_of_part hcheck
    obtain ⟨rfl, rfl⟩ := ih
    rw [hdrain]
    exact ⟨by simp, rfl⟩

theorem drains_iff (hc : check.Reliable) {bytes : List UInt8} {text : List Char}
    {kept : List UInt8} : Drains check bytes text kept ↔ drain bytes = (text, kept) := by
  constructor
  · intro h
    obtain ⟨htext, hkept⟩ := h.eq_drain hc
    exact Prod.ext htext.symm hkept.symm
  · intro h
    have hrounds := rounds_drain hc [] bytes
    rwa [h] at hrounds

-- ============================================================ the decoder's laws

/-- Draining what was kept and more goes on where draining had stopped. -/
theorem drain_append (xs ys : List UInt8) :
    drain (xs ++ ys)
      = ((drain xs).1 ++ (drain ((drain xs).2 ++ ys)).1, (drain ((drain xs).2 ++ ys)).2) := by
  refine Prod.ext ?_ ?_
  · simp only [drain_fst, drain_snd]
    exact settled_append xs ys
  · simp only [drain_snd]
    exact unfinished_append xs ys

/-- Draining is a decoder that can be resumed. In rounds of any reliable checker it ends on
every byte list, and only with what the byte-wise decoder gives: what it keeps is the end of
the list, at most three bytes, which drained again are kept again; its text and the text of
what it keeps are the text of the list; and a list that is well-formed is all text. Drained
in two pieces, the second behind what was kept of the first, a list gives what it gives
when it is drained at once. -/
theorem draining_is_resumable (hc : check.Reliable) :
    (∀ bytes, ∃ text kept, Drains check bytes text kept)
    ∧ (∀ bytes text kept, Drains check bytes text kept →
        drain bytes = (text, kept)
        ∧ kept <:+ bytes ∧ kept.length ≤ 3
        ∧ text ++ lossy kept = lossy bytes
        ∧ ((∃ whole, bytes = encode whole) → encode text = bytes ∧ kept = [])
        ∧ ∀ text' kept', Drains check kept text' kept' ↔ text' = [] ∧ kept' = kept)
    ∧ ∀ first more text kept text' kept', Drains check first text kept →
        Drains check (kept ++ more) text' kept' →
        Drains check (first ++ more) (text ++ text') kept' := by
  refine ⟨fun bytes => ⟨_, _, rounds_drain hc [] bytes⟩, ?_, ?_⟩
  · intro bytes text kept h
    have hdrain := (drains_iff hc).mp h
    obtain ⟨rfl, rfl⟩ : text = (drain bytes).1 ∧ kept = (drain bytes).2 := by
      rw [hdrain]
      exact ⟨rfl, rfl⟩
    have hbegins : Begins (drain bytes).2 := begins_feed begins_nil bytes
    refine ⟨rfl, feed_snd_suffix [] bytes, hbegins.length_le, ?_, ?_, ?_⟩
    · rw [drain_fst, drain_snd]
      exact (lossy_eq_settled bytes).symm
    · rintro ⟨whole, rfl⟩
      rw [drain_encode]
      exact ⟨rfl, rfl⟩
    · intro text' kept'
      rw [drains_iff hc, drain_of_begins hbegins, Prod.mk.injEq, eq_comm, @eq_comm _ _ kept']
  · intro first more text kept text' kept' hfirst hmore
    rw [drains_iff hc] at hfirst hmore ⊢
    rw [drain_append, hfirst, hmore]

/-- A character cut off by another, and one that is cut in two by the pieces. -/
theorem draining_is_resumable_split_character :
    let first : List UInt8 := [0x61, 0xF0, 0x9F, 0x41, 0xD0]
    Checker.trying.Reliable
      ∧ Drains Checker.trying first ['a', '\uFFFD', 'A'] [0xD0]
      ∧ Drains Checker.trying (first ++ [0x96]) ['a', '\uFFFD', 'A', 'Ж'] [] := by
  intro first
  obtain ⟨hends, hlaws, hresumes⟩ := draining_is_resumable Checker.reliable_trying
  have hdrains : ∀ bytes text kept, drain bytes = (text, kept) →
      Drains Checker.trying bytes text kept := by
    intro bytes text kept hdrain
    obtain ⟨text', kept', h⟩ := hends bytes
    obtain ⟨rfl, rfl⟩ := Prod.mk.inj (hdrain.symm.trans (hlaws _ _ _ h).1)
    exact h
  have hfirst := hdrains first ['a', '\uFFFD', 'A'] [0xD0] (by decide)
  have hsecond := hdrains [0xD0, 0x96] ['Ж'] [] (by decide)
  exact ⟨Checker.reliable_trying, hfirst, hresumes _ _ _ _ _ _ hfirst hsecond⟩

end ScanTrace.Utf8
