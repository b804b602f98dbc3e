/-
Whether a text keeps its place among bytes. Before a text is handed to a host
that takes text only, the bytes that are held for its stream are released;
but the release calls the host before the text is handed over, and what the
host writes in between is held again. Such bytes are still held when the text
is handed over, and the bytes of a later piece complete a character with them
that belongs on both sides of the text (`bytes_in_release_join_across_text`).

# What is true

Nothing else gets in between. What is held when a text is handed over was
written on top of this very text, while it waited for its release: between
the step at which the sink was asked for it and the one that hands it over,
in a run that never left its frame (`Interjected`). Of a text without such an
interjection the place is kept, and so it is from there on: whatever is held
or put together later is bytes that were asked for later (`bytesAsked`).

# How it is shown

A frame with a text that is past its release has only to put it into form and
to hand it over (`Frame.Ready`). The release leaves nothing held, and as long
as the frame is ready, bytes can come to be held only by an act of a frame
above it. So the law for one frame, that nothing is held or there was an
interjection (`Undisturbed`), is kept by every step.
-/
import ScanTrace.Proofs.Reentry.Gathered
import ScanTrace.Proofs.Reentry.Origin

namespace ScanTrace

open Session

-- =================================================================== texts

/-- Whether a call hands over a text or a character on a stream. -/
def Call.isTextOn (s : Stream) : Call → Bool
  | .write r _ | .putChar r _ => r = s
  | _ => false

namespace Frame

/-- A text on a stream has still to be handed over. -/
def HasText (s : Stream) (f : Frame) : Prop :=
  ∃ conduct call, .tell conduct call ∈ f.acts ∧ call.isTextOn s = true

/-- A text on a stream is handed over now. -/
def HandsOver (s : Stream) (f : Frame) : Prop :=
  f.call = none ∧ ∃ conduct call as, f.acts = .tell conduct call :: as ∧ call.isTextOn s = true

/-- Nothing is left of a text on a stream but to put it into form and to hand it
over. -/
def Ready (s : Stream) (f : Frame) : Prop :=
  ∃ mid conduct call, f.acts = mid ++ [.tell conduct call] ∧ call.isTextOn s = true
    ∧ ∀ a ∈ mid, ∃ text, a = .format text

theorem HandsOver.hasText {s : Stream} {f : Frame} (h : f.HandsOver s) : f.HasText s := by
  obtain ⟨-, conduct, call, as, hacts, hcall⟩ := h
  refine ⟨conduct, call, ?_, hcall⟩
  rw [hacts]
  exact List.mem_cons_self

theorem not_ready_nil {s : Stream} {f : Frame} (hacts : f.acts = []) : ¬ f.Ready s := by
  rintro ⟨mid, conduct, call, heq, -⟩
  rw [hacts] at heq
  exact absurd heq.symm (List.append_ne_nil_of_right_ne_nil _ (List.cons_ne_nil _ _))

theorem Ready.acts_ne_nil {s : Stream} {f : Frame} (h : f.Ready s) : f.acts ≠ [] :=
  fun hacts => not_ready_nil hacts h

/-- What is due in a frame that is ready changes nothing that is held. -/
theorem Ready.heldAfter {s r : Stream} {f : Frame} {a : Act} {as : List Act} (h : f.Ready s)
    (hacts : f.acts = a :: as) (held : List UInt8) : a.heldAfter r held = held := by
  obtain ⟨mid, conduct, call, hmid, -, hformat⟩ := h
  rw [hmid] at hacts
  cases mid with
  | nil =>
    cases hacts
    rfl
  | cons b mid =>
    cases hacts
    obtain ⟨text, rfl⟩ := hformat _ List.mem_cons_self
    rfl

end Frame

section Texts

variable {h : Host} {op : SinkOp} {f : Frame} {s : Stream}

/-- A text for a host that takes text only is released for, put into form and handed
over. -/
theorem SinkOp.hostActs_of_text (ht : h.textOnly = true) {conduct : Conduct} {call : Call}
    (ha : .tell conduct call ∈ hostActs h op) (hcall : call.isTextOn s = true) :
    ∃ mid, hostActs h op = .release h s :: (mid ++ [.tell conduct call])
      ∧ ∀ a ∈ mid, ∃ text, a = .format text := by
  have hsettle : settleActs h s = [.release h s] := settleActs_of_textOnly ht s
  cases HostAct.of_mem ha with
  | writes r text =>
    cases of_decide_eq_true hcall
    refine ⟨[.format text], ?_, fun a ha => ⟨text, List.mem_singleton.mp ha⟩⟩
    simp only [hostActs, hsettle, List.cons_append, List.nil_append]
  | puts r c hput | spells r c hput =>
    cases of_decide_eq_true hcall
    refine ⟨[], ?_, List.forall_mem_nil _⟩
    simp only [hostActs, hsettle, hput, List.cons_append, List.nil_append]
  | passes | flushes | exits | asks => cases hcall

/-- An operation that has only been asked for is not ready: its release is to come. -/
theorem Frame.not_ready_hostActs (ht : h.textOnly = true) (hacts : f.acts = SinkOp.hostActs h op) :
    ¬ f.Ready s := by
  rintro ⟨mid, conduct, call, hmid, hcall, hformat⟩
  rw [hacts] at hmid
  have hmem : .tell conduct call ∈ SinkOp.hostActs h op := by
    rw [hmid]
    exact List.mem_append_right _ (List.mem_singleton_self _)
  obtain ⟨mid', hshape, -⟩ := SinkOp.hostActs_of_text ht hmem hcall
  rw [hmid] at hshape
  cases mid with
  | nil => cases hshape
  | cons a mid =>
    obtain ⟨text, rfl⟩ := hformat a List.mem_cons_self
    cases hshape

/-- A frame with a text is at its release, or past it. -/
theorem Frame.LeftOf.ready_or_release (hl : f.LeftOf (some (.host h)) op)
    (ht : h.textOnly = true) (hf : f.HasText s) :
    f.Ready s ∨ f.call = none ∧ ∃ as, f.acts = .release h s :: as := by
  obtain ⟨done, hdone, hcalled⟩ := hl
  obtain ⟨conduct, call, hmem, hcall⟩ := hf
  have hall : .tell conduct call ∈ SinkOp.hostActs h op := by
    show _ ∈ op.acts (some (.host h))
    rw [hdone]
    exact List.mem_append_right _ hmem
  obtain ⟨mid, hshape, hformat⟩ := SinkOp.hostActs_of_text ht hall hcall
  have hacts : done ++ f.acts = .release h s :: (mid ++ [.tell conduct call]) :=
    hdone.symm.trans hshape
  cases done with
  | nil =>
    refine .inr ⟨?_, _, hacts⟩
    cases hc : f.call with
    | none => rfl
    | some waited =>
      rw [hc] at hcalled
      exact absurd rfl (hcalled rfl)
  | cons d done =>
    have hsuffix : f.acts <:+ mid ++ [.tell conduct call] := ⟨done, (List.cons.inj hacts).2⟩
    rcases List.suffix_concat_iff.mp hsuffix with hnil | ⟨mid', hf, hmid⟩
    · rw [hnil] at hmem
      cases hmem
    · exact .inl ⟨mid', conduct, call, hf, hcall, fun a ha => hformat a (hmid.subset ha)⟩

end Texts

-- ============================================================ interjections

/-- Bytes for a stream are put together on top of a frame that waits for a call. -/
def Moment.AssemblesOn (s : Stream) (below : List Frame) (m : Moment) : Prop :=
  ∃ h bytes as ds between f,
    m.frames = ⟨none, .assemble h s bytes :: as, ds⟩ :: (between ++ f :: below)
      ∧ f.call.isSome = true

/-- The frame on top of others is at a request with deeds left behind it, and since the step
of the run at which the sink was asked for it, bytes for a stream were put together on top
of the frame. -/
def Interjected (start : Moment) (s : Stream) (below : List Frame) (ds : List Deed)
    (past : List Label) (m : Moment) : Prop :=
  ∃ op before waiting since m', past = before ++ .asks op :: (waiting ++ since)
    ∧ Undertaken start below ds op before waiting m' ∧ m'.AssemblesOn s below
    ∧ RunOver below m' since m

theorem Interjected.concat {start m m' : Moment} {s : Stream} {below : List Frame}
    {ds : List Deed} {past : List Label} {l : Label} (h : Interjected start s below ds past m)
    (hmove : Move l m m') (hover : m'.Over below) :
    Interjected start s below ds (past ++ [l]) m' := by
  obtain ⟨op, before, waiting, since, m₁, rfl, hasked, hbytes, hsince⟩ := h
  refine ⟨op, before, waiting, since ++ [l], m₁, ?_, hasked, hbytes, hsince.concat hmove hover⟩
  simp only [List.append_assoc, List.cons_append]

/-- Nothing is held for a stream, unless bytes for it came in on top of the request that a
frame is at. -/
def Undisturbed (start : Moment) (s : Stream) (f : Frame) (below : List Frame)
    (past : List Label) (m : Moment) : Prop :=
  m.st.store.held.get s = [] ∨ Interjected start s below f.deeds past m

theorem Undisturbed.step {start m m' : Moment} {s : Stream} {f f' : Frame} {below : List Frame}
    {past : List Label} {l : Label} (h : Undisturbed start s f below past m) (hmove : Move l m m')
    (hheld : m'.st.store.held.get s = m.st.store.held.get s) (hdeeds : f.deeds = f'.deeds)
    (hover : m'.Over below) : Undisturbed start s f' below (past ++ [l]) m' := by
  rcases h with hnil | hinter
  · exact .inl (hheld.trans hnil)
  · rw [hdeeds] at hinter
    exact .inr (hinter.concat hmove hover)

/-- Every frame with a text that is past its release is undisturbed. -/
structure Placed (h : Host) (st₀ : Session) (s : Stream) (past : List Label) (m : Moment) :
    Prop where
  sink : m.st.sink = some (.host h)
  stacked : Stacked past m
  run : Run ⟨[], st₀⟩ past m
  ready : ∀ above f below, m.frames = above ++ f :: below → f.Ready s →
    Undisturbed ⟨[], st₀⟩ s f below past m

namespace Placed

variable {h : Host} {st₀ : Session} {m m' : Moment} {s : Stream} {past : List Label} {l : Label}

/-- A frame that a step leaves as it was. -/
theorem kept (hp : Placed h st₀ s past m) (hmove : Move l m m')
    (hheld : m'.st.store.held.get s = m.st.store.held.get s) {above : List Frame} {f : Frame}
    {below : List Frame} (hframes : m.frames = above ++ f :: below) (hover : m'.Over below)
    (hf : f.Ready s) : Undisturbed ⟨[], st₀⟩ s f below (past ++ [l]) m' :=
  (hp.ready above f below hframes hf).step hmove hheld rfl hover

/-- A step in the topmost frame that leaves what is held. -/
theorem top {t t' : Frame} {fs : List Frame} {st st' : Session}
    (hp : Placed h st₀ s past ⟨t :: fs, st⟩) (hmove : Move l ⟨t :: fs, st⟩ ⟨t' :: fs, st'⟩)
    (hheld : st'.store.held.get s = st.store.held.get s)
    (htop : t'.Ready s → t.Ready s ∧ t.deeds = t'.deeds) (above : List Frame)
    (f : Frame) (below : List Frame) (hframes : t' :: fs = above ++ f :: below) (hf : f.Ready s) :
    Undisturbed ⟨[], st₀⟩ s f below (past ++ [l]) ⟨t' :: fs, st'⟩ := by
  have hover : Moment.Over below ⟨t' :: fs, st'⟩ := ⟨above, f, hframes⟩
  cases above with
  | nil =>
    obtain ⟨rfl, rfl⟩ := List.cons.inj hframes
    obtain ⟨hready, hdeeds⟩ := htop hf
    exact (hp.ready [] t fs rfl hready).step hmove hheld hdeeds hover
  | cons top above =>
    have hbefore : t :: fs = (t :: above) ++ f :: below :=
      congrArg (t :: ·) (List.cons.inj hframes).2
    exact hp.kept hmove hheld hbefore hover hf

/-- An act on top of frames that wait. -/
theorem ready_below (hp : Placed h st₀ s past m) (hmove : Move l m m') {a : Act}
    {as : List Act} {ds : List Deed} {above : List Frame} {f : Frame} {below : List Frame}
    (hframes : m.frames = (⟨none, a :: as, ds⟩ :: above) ++ f :: below) (hover : m'.Over below)
    (hf : f.Ready s)
    (hheld : m'.st.store.held.get s = a.heldAfter s (m.st.store.held.get s)) :
    Undisturbed ⟨[], st₀⟩ s f below (past ++ [l]) m' := by
  have hkept : a.heldAfter s (m.st.store.held.get s) = m.st.store.held.get s →
      Undisturbed ⟨[], st₀⟩ s f below (past ++ [l]) m' := by
    intro hsame
    exact hp.kept hmove (hheld.trans hsame) hframes hover hf
  cases a with
  | release h' r =>
    by_cases hr : r = s
    · exact .inl (hheld.trans (if_pos hr))
    · exact hkept (if_neg hr)
  | assemble h' r bytes =>
    by_cases hr : r = s
    · subst hr
      have hwaits : f.call.isSome = true := by
        refine hp.stacked.waits f ?_
        rw [hframes]
        exact List.mem_append_right _ List.mem_cons_self
      obtain ⟨op, before, waiting, rfl, hasked⟩ := hp.run.undertaken hframes hf.acts_ne_nil
      refine .inr ⟨op, before, waiting, [l], m, by simp, hasked, ?_, ?_⟩
      · exact ⟨h', bytes, as, ds, above, f, hframes, hwaits⟩
      · exact RunOver.concat (.nil ⟨_, f, hframes⟩) hmove hover
    · exact hkept (if_neg hr)
  | format _ | tell _ _ | collect _ _ | emitDirect _ _ | countFlush | flushDirect _
  | keepExitCode _ | note _ => exact hkept rfl

/-- An act in a frame that is ready behind it. -/
theorem ready_top (hp : Placed h st₀ s past m) (ht : h.textOnly = true) (hmove : Move l m m')
    {a : Act} {as : List Act} {ds : List Deed} {f : Frame} {below : List Frame}
    (hframes : m.frames = ⟨none, a :: as, ds⟩ :: below) (hacts : f.acts = as)
    (hdeeds : f.deeds = ds) (hover : m'.Over below) (hf : f.Ready s)
    (hheld : m'.st.store.held.get s = a.heldAfter s (m.st.store.held.get s)) :
    Undisturbed ⟨[], st₀⟩ s f below (past ++ [l]) m' := by
  have htext : (⟨none, a :: as, ds⟩ : Frame).HasText s := by
    obtain ⟨mid, conduct, call, heq, hcall, -⟩ := hf
    refine ⟨conduct, call, List.mem_cons_of_mem _ ?_, hcall⟩
    rw [← hacts, heq]
    exact List.mem_append_right _ (List.mem_singleton_self _)
  obtain ⟨op, -, hleft⟩ := hp.stacked.left_top hframes (List.cons_ne_nil a as)
  rw [hp.sink] at hleft
  rcases hleft.ready_or_release ht htext with hready | ⟨-, as', heq⟩
  · have hsame := hready.heldAfter (r := s) rfl (m.st.store.held.get s)
    exact (hp.ready [] _ below hframes hready).step hmove (hheld.trans hsame) hdeeds.symm hover
  · cases heq
    exact .inl (hheld.trans (if_pos rfl))

theorem step (hp : Placed h st₀ s past m) (ht : h.textOnly = true) (hmove : Move l m m') :
    Placed h st₀ s (past ++ [l]) m' where
  sink := hmove.sink.trans hp.sink
  stacked := hp.stacked.step hmove
  run := hp.run.append (.single hmove)
  ready := by
    have hmove' := hmove
    cases hmove with
    | start u _ =>
      intro above f below hframes hf
      cases above with
      | nil =>
        cases hframes
        exact absurd hf (Frame.not_ready_nil rfl)
      | cons top above =>
        exact hp.kept hmove' rfl (List.cons.inj hframes).2 ⟨_, f, hframes⟩ hf
    | aside _ ha =>
      intro above f below hframes hf
      refine hp.kept hmove' ?_ hframes ⟨above, f, hframes⟩ hf
      show PerStream.get _ s = _
      rw [ha.held]
    | @ask guard op ds fs st _ =>
      have hsink : st.sink = some (.host h) := hp.sink
      have hacts : op.acts st.sink = SinkOp.hostActs h op := by
        rw [hsink]
        rfl
      refine hp.top hmove' rfl ?_
      exact fun hf => absurd hf (Frame.not_ready_hostActs ht hacts)
    | drop _ | refuse _ | close _ | mark | form =>
      refine hp.top hmove' rfl ?_
      exact fun hf => absurd hf (Frame.not_ready_nil rfl)
    | @act a as ds fs st =>
      intro above f below hframes hf
      have hheld := a.held_begin st s
      cases above with
      | nil =>
        cases hframes
        exact hp.ready_top ht hmove' rfl rfl rfl ⟨[], _, rfl⟩ hf hheld
      | cons top above =>
        have hbefore : ⟨none, a :: as, ds⟩ :: fs = (⟨none, a :: as, ds⟩ :: above) ++ f :: below :=
          congrArg _ (List.cons.inj hframes).2
        exact hp.ready_below hmove' hbefore ⟨_, f, hframes⟩ hf hheld
    | @back conduct call as ds fs st =>
      refine hp.top hmove' ?_ fun hf => ⟨hf, rfl⟩
      rw [store_endCall]
    | @finish fs st =>
      intro above f below hframes hf
      have hbefore : ⟨none, [], []⟩ :: fs = (⟨none, [], []⟩ :: above) ++ f :: below :=
        congrArg _ hframes
      exact hp.kept hmove' rfl hbefore ⟨above, f, hframes⟩ hf

end Placed

theorem Run.placed {h : Host} (ht : h.textOnly = true) {st : Session}
    (hsink : st.sink = some (.host h)) {trace : List Label} {m : Moment}
    (hrun : Run ⟨[], st⟩ trace m) (s : Stream) : Placed h st s trace m := by
  have hstart : Placed h st s [] ⟨[], st⟩ := by
    refine ⟨hsink, .nil st, .nil _, ?_⟩
    intro above f below hframes
    exact absurd hframes.symm (List.append_ne_nil_of_right_ne_nil _ (List.cons_ne_nil _ _))
  exact hrun.invariant (fun hpast hmove => hpast.step ht hmove) hstart

-- ============================================================= handing over

section HandingOver

variable {h : Host} {past : List Label} {m : Moment} {s : Stream} {f : Frame} {fs : List Frame}

theorem Placed.ready_of_text {st₀ : Session} (hp : Placed h st₀ s past m)
    (ht : h.textOnly = true) (hframes : m.frames = f :: fs) (hf : f.HasText s)
    (hrelease : f.call = none → ∀ as, f.acts ≠ .release h s :: as) : f.Ready s := by
  have hacts : f.acts ≠ [] := by
    obtain ⟨conduct, call, hmem, -⟩ := hf
    exact List.ne_nil_of_mem hmem
  obtain ⟨op, -, hleft⟩ := hp.stacked.left_top hframes hacts
  rw [hp.sink] at hleft
  rcases hleft.ready_or_release ht hf with hready | ⟨hcall, as, heq⟩
  · exact hready
  · exact absurd heq (hrelease hcall as)

theorem Moment.gathered_of_handsOver (hframes : m.frames = f :: fs) (hf : f.HandsOver s) :
    m.gathered s = m.st.store.held.get s := by
  have hdue : m.due s = [] := by
    obtain ⟨⟨waited, acts, ds⟩, hcall, conduct, call, as, hacts, -⟩ := f, hf
    cases hcall
    cases hacts
    unfold Moment.due
    rw [hframes]
    rfl
  unfold Moment.gathered
  rw [hdue, List.append_nil]

/-- What is left of a text runs to the point where it is handed over, and touches
nothing that is held. -/
theorem run_to_handsOver {mid : List Act} (hformat : ∀ a ∈ mid, ∃ text, a = .format text)
    (conduct : Conduct) (call : Call) (ds : List Deed) (fs : List Frame) (st : Session) :
    ∃ more st', Run ⟨⟨none, mid ++ [.tell conduct call], ds⟩ :: fs, st⟩ more
        ⟨⟨none, [.tell conduct call], ds⟩ :: fs, st'⟩
      ∧ (∀ l ∈ more, l = .silent) ∧ st'.store = st.store := by
  induction mid generalizing st with
  | nil => exact ⟨[], st, .nil _, (fun _ hl => nomatch hl), rfl⟩
  | cons a mid ih =>
    obtain ⟨text, rfl⟩ := hformat a List.mem_cons_self
    obtain ⟨more, st', hrun, hsilent, hstore⟩ :=
      ih (fun b hb => hformat b (List.mem_cons_of_mem _ hb)) (st.format text)
    exact ⟨.silent :: more, st', .cons .act hrun, List.forall_mem_cons.mpr ⟨rfl, hsilent⟩, hstore⟩

end HandingOver

/-- At a moment of a run when a text is handed over to a host that takes text only,
nothing is held for its stream, unless bytes were put together on top of this
text while it waited for its release; and if nothing is held, then all that is
held and put together from there on was asked for from there on. What is held
when the release comes back is still held when the text is handed over. -/
theorem text_keeps_place_unless_interjected {h : Host} (ht : h.textOnly = true) {st : Session}
    (hsink : st.sink = some (.host h)) {trace : List Label} {m : Moment}
    (hrun : Run ⟨[], st⟩ trace m) {f : Frame} {fs : List Frame} (hframes : m.frames = f :: fs)
    (s : Stream) :
    (f.HandsOver s →
        (m.st.store.held.get s = [] ∨ Interjected ⟨[], st⟩ s fs f.deeds trace m)
          ∧ (m.st.store.held.get s = [] → ∀ since m', Run m since m' →
              m'.gathered s <:+ bytesAsked s since))
      ∧ (f.call.isSome = true → f.HasText s → ∃ more m' f', Run m more m'
          ∧ (∀ l ∈ more, l = .silent) ∧ m'.frames = f' :: fs ∧ f'.HandsOver s
          ∧ m'.st.store.held.get s = m.st.store.held.get s) := by
  have hplaced := hrun.placed ht hsink s
  refine ⟨?_, ?_⟩
  · intro hf
    have hready : f.Ready s := by
      refine hplaced.ready_of_text ht hframes hf.hasText ?_
      obtain ⟨-, conduct, call, as, hacts, -⟩ := hf
      intro _ as' heq
      rw [hacts] at heq
      cases heq
    refine ⟨hplaced.ready [] f fs hframes hready, ?_⟩
    intro hnil since m' hsince
    refine hsince.gathered ht hplaced.sink hplaced.stacked ?_
    rw [Moment.gathered_of_handsOver hframes hf, hnil]
  · intro hwaits hf
    have hready : f.Ready s := by
      refine hplaced.ready_of_text ht hframes hf ?_
      intro hcall
      rw [hcall] at hwaits
      cases hwaits
    obtain ⟨mid, conduct, call, hacts, hcall, hformat⟩ := hready
    obtain ⟨frames, st₁⟩ := m
    obtain ⟨_ | ⟨conduct₁, call₁⟩, acts, ds⟩ := f
    · cases hwaits
    · cases hframes
      cases hacts
      obtain ⟨more, st', hmore, hsilent, hstore⟩ :=
        run_to_handsOver hformat conduct call ds fs (st₁.endCall conduct₁ call₁)
      refine ⟨.silent :: more, _, _, .cons .back hmore,
        List.forall_mem_cons.mpr ⟨rfl, hsilent⟩, rfl, ⟨rfl, conduct, call, [], rfl, hcall⟩, ?_⟩
      show st'.store.held.get s = st₁.store.held.get s
      rw [hstore, store_endCall]

/-- A text behind one half of a character: the half is released, and the text takes
its place. -/
theorem text_keeps_place_after_half :
    let h : Host := { write := .returns none, flush := .returns none, exit := .returns none }
    let st : Session := { env := { tempDir := "/tmp" }, sink := some (.host h) }
    ∃ trace m f, Run ⟨[], st⟩ trace m ∧ m.frames = [f] ∧ f.HandsOver .stdout
      ∧ m.st.store.held.get .stdout = []
      ∧ ∀ since m', Run m since m' → m'.gathered .stdout <:+ bytesAsked .stdout since := by
  intro h st
  have hrun : ∃ trace m f, Run ⟨[], st⟩ trace m ∧ m.frames = [f] ∧ f.HandsOver .stdout
      ∧ m.st.store.held.get .stdout = [] := by
    refine ⟨_, _, _, .cons (.start (.sink (.writeBytes .stdout [0xD0])) trivial) (.cons (.ask nofun)
      (.cons .act (.cons .finish (.cons (.start (.sink (.write .stdout "x")) trivial)
        (.cons (.ask nofun) (.cons .act (.cons .back (.cons .act (.nil _))))))))), rfl,
      ⟨rfl, _, _, _, rfl, rfl⟩, rfl⟩
  obtain ⟨trace, m, f, hrun, hframes, hf, hheld⟩ := hrun
  have hplace := (text_keeps_place_unless_interjected rfl rfl hrun hframes .stdout).1 hf
  exact ⟨trace, m, f, hrun, hframes, hf, hheld, hplace.2 hheld⟩

/-- A host that writes half of a character when the one before it is released: it is
held when the text is handed over, and the other half, which is written after the
text, completes it. -/
theorem bytes_in_release_join_across_text :
    let h : Host := { write := .returns none, flush := .returns none, exit := .returns none }
    let st := Session.withSink { tempDir := "/tmp" } (.host h)
      [(.write, [.console .main (.writeBytes .stdout [0xD0])])]
    let half : Step := { op := .console .main (.writeBytes .stdout [0xD0]) }
    let text : Step := { op := .console .main (.print "x") }
    let otherHalf : Step := { op := .console .main (.writeBytes .stdout [0x96]) }
    (∃ trace m f, Run ⟨[], st⟩ trace m ∧ m.frames = [f] ∧ f.HandsOver .stdout
        ∧ m.st.store.held.get .stdout = [0xD0])
      ∧ (run st [half, text, otherHalf]).2.events
        = [.called (.write .stdout "\uFFFD"), .reacted .write .done, .called (.write .stdout "x"),
           .called (.write .stdout "Ж")] := by
  intro h st half text otherHalf
  refine ⟨?_, ?_⟩
  · refine ⟨_, _, _, .cons (.start (.console .main (.writeBytes .stdout [0xD0])) trivial)
      (.cons (.ask fun c hc => by cases hc; rfl) (.cons .act (.cons .finish
        (.cons (.start (.console .main (.print "x")) trivial)
          (.cons (.ask fun c hc => by cases hc; rfl) (.cons .act
            (.cons (.start (.console .main (.writeBytes .stdout [0xD0])) rfl)
              (.cons (.ask fun c hc => by cases hc; rfl) (.cons .act (.cons .finish (.cons .back
                (.cons .act (.nil _))))))))))))), rfl, ⟨rfl, _, _, _, rfl, rfl⟩, rfl⟩
  · decide +kernel

end ScanTrace
