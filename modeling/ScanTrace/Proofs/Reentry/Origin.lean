/-
Which step of a run a request comes from. Two frames may look alike: a host
that writes the same text twice has both requests in frames with the same
deeds, one after the other on top of the same frames. What tells them apart
is when they were there. So a request is known by the step at which the sink
was asked for it and by the run since then, in which its frame was never
left (`Undertaken`).

A frame is left at its end only, and what is on top of it before it. As long
as there is a frame on top of those below, it is the one that was there
(`RunOver`); and its deeds are only taken off until it ends the run, so with
the same deeds left it is at the same request.

Every frame with something left of a request has such a step behind it
(`Run.undertaken`). By one step a frame is as it was, or is asked now, or goes
on with what it was at (`Move.origin`), and the step is kept in all three.
-/
import ScanTrace.Proofs.Reentry.Machine

namespace ScanTrace

open Session

-- ================================================================== frames

/-- There is a frame on top of others. -/
def Moment.Over (below : List Frame) (m : Moment) : Prop :=
  ∃ above f, m.frames = above ++ f :: below

/-- A run in which the frame on top of others is never left. -/
inductive RunOver (below : List Frame) : Moment → List Label → Moment → Prop where
  | nil {m : Moment} : m.Over below → RunOver below m [] m
  | concat {m m' m'' : Moment} {trace : List Label} {l : Label} :
      RunOver below m trace m' → Move l m' m'' → m''.Over below →
      RunOver below m (trace ++ [l]) m''

/-- Where a frame that is at work comes from. -/
theorem Move.origin {l : Label} {m m' : Moment} (h : Move l m m') {above : List Frame} {f : Frame}
    {below : List Frame} (hframes : m'.frames = above ++ f :: below) (hacts : f.acts ≠ []) :
    (∃ above', m.frames = above' ++ f :: below)
      ∨ (∃ guard op, l = .asks op ∧ m.frames = ⟨none, [], .ask guard op :: f.deeds⟩ :: below)
      ∨ ∃ t, m.frames = t :: below ∧ t.deeds = f.deeds ∧ t.acts ≠ [] := by
  -- below the topmost frame nothing changes
  have hlower : ∀ {t t' : Frame} {fs above : List Frame}, t' :: fs = above ++ f :: below →
      (∃ above', t :: fs = above' ++ f :: below) ∨ t' = f ∧ fs = below := by
    intro t t' fs above heq
    cases above with
    | nil => exact .inr (List.cons.inj heq)
    | cons top above => exact .inl ⟨t :: above, congrArg (t :: ·) (List.cons.inj heq).2⟩
  cases h with
  | start u _ =>
    cases above with
    | nil =>
      cases hframes
      exact absurd rfl hacts
    | cons top above => exact .inl ⟨above, (List.cons.inj hframes).2⟩
  | aside _ _ => exact .inl ⟨above, hframes⟩
  | @ask guard op ds fs st _ =>
    rcases hlower hframes with hsame | ⟨rfl, rfl⟩
    · exact .inl hsame
    · exact .inr (.inl ⟨guard, op, rfl, rfl⟩)
  | drop _ | refuse _ | close _ | mark | form =>
    rcases hlower hframes with hsame | ⟨rfl, rfl⟩
    · exact .inl hsame
    · exact absurd rfl hacts
  | act =>
    rcases hlower hframes with hsame | ⟨rfl, rfl⟩
    · exact .inl hsame
    · exact .inr (.inr ⟨_, rfl, rfl, List.cons_ne_nil _ _⟩)
  | back =>
    rcases hlower hframes with hsame | ⟨rfl, rfl⟩
    · exact .inl hsame
    · exact .inr (.inr ⟨_, rfl, rfl, hacts⟩)
  | finish => exact .inl ⟨⟨none, [], []⟩ :: above, congrArg _ hframes⟩

-- ================================================================ requests

/-- A request that is at work in the frame on top of others, with deeds left behind it: the
step of the run at which the sink was asked for it, and a run since then that never left
the frame. -/
def Undertaken (start : Moment) (below : List Frame) (ds : List Deed) (op : SinkOp)
    (before since : List Label) (m : Moment) : Prop :=
  ∃ guard m₀ m₁, Run start before m₀ ∧ m₀.frames = ⟨none, [], .ask guard op :: ds⟩ :: below
    ∧ Move (.asks op) m₀ m₁ ∧ RunOver below m₁ since m

theorem Undertaken.concat {start m m' : Moment} {below : List Frame} {ds : List Deed}
    {op : SinkOp} {before since : List Label} {l : Label}
    (h : Undertaken start below ds op before since m) (hmove : Move l m m')
    (hover : m'.Over below) : Undertaken start below ds op before (since ++ [l]) m' := by
  obtain ⟨guard, m₀, m₁, hbefore, hframes, hask, hsince⟩ := h
  exact ⟨guard, m₀, m₁, hbefore, hframes, hask, hsince.concat hmove hover⟩

/-- Every frame with something left of a request was asked for it. -/
structure Rooted (st : Session) (past : List Label) (m : Moment) : Prop where
  run : Run ⟨[], st⟩ past m
  asked : ∀ above f below, m.frames = above ++ f :: below → f.acts ≠ [] →
    ∃ op before since, past = before ++ .asks op :: since
      ∧ Undertaken ⟨[], st⟩ below f.deeds op before since m

namespace Rooted

variable {st : Session} {past : List Label} {l : Label} {m m' : Moment}

theorem nil (st : Session) : Rooted st [] ⟨[], st⟩ where
  run := .nil _
  asked _ _ _ hframes :=
    absurd hframes.symm (List.append_ne_nil_of_right_ne_nil _ (List.cons_ne_nil _ _))

theorem step (h : Rooted st past m) (hmove : Move l m m') : Rooted st (past ++ [l]) m' where
  run := h.run.append (.single hmove)
  asked := by
    intro above f below hframes hacts
    have hover : m'.Over below := ⟨above, f, hframes⟩
    have hlater : ∀ {ds}, (∃ op before since, past = before ++ .asks op :: since
          ∧ Undertaken ⟨[], st⟩ below ds op before since m) →
        ∃ op before since, past ++ [l] = before ++ .asks op :: since
          ∧ Undertaken ⟨[], st⟩ below ds op before since m' := by
      rintro ds ⟨op, before, since, rfl, hasked⟩
      exact ⟨op, before, since ++ [l], List.append_assoc .., hasked.concat hmove hover⟩
    rcases hmove.origin hframes hacts with
      ⟨above', hsame⟩ | ⟨guard, op, rfl, hasked⟩ | ⟨t, htop, hdeeds, hwork⟩
    · exact hlater (h.asked above' f below hsame hacts)
    · exact ⟨op, past, [], rfl, guard, m, m', h.run, hasked, hmove, .nil hover⟩
    · rw [← hdeeds]
      exact hlater (h.asked [] t below htop hwork)

end Rooted

/-- What is at work in a frame was asked for at a step of the run, and the frame is the one
that was asked then. -/
theorem Run.undertaken {st : Session} {past : List Label} {m : Moment} (h : Run ⟨[], st⟩ past m)
    {above : List Frame} {f : Frame} {below : List Frame} (hframes : m.frames = above ++ f :: below)
    (hacts : f.acts ≠ []) : ∃ op before since, past = before ++ .asks op :: since
      ∧ Undertaken ⟨[], st⟩ below f.deeds op before since m :=
  (h.invariant Rooted.step (Rooted.nil st)).asked above f below hframes hacts

end ScanTrace
