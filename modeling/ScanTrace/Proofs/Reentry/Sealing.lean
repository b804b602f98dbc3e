/-
What a sealed console lets through, and what seals it. Operations interleave
here in any way that callbacks allow, over one sink and any number of
families of consoles.

# Sealing

A family is sealed by one kind of step only, and never opened again
(`Move.isSealed_iff`). The step belongs to an operation that was started to
end the run through a console of that family (`Run.owed_of_seals`), so no
operation on one family seals another.

# Silence

What a sealed console is asked to do is dropped deed by deed. The question
is put to the session at each deed, and the answer cannot have changed in
between, because nothing that is dropped gives the turn to the host: a frame
whose deeds will all be dropped passes without any other step in between
(`Run.through_silent`).

One thing is done behind the seal as before it. A tracer puts the entry of a
tag together before it asks its console, so the entry is in form when it is
dropped (`sealed_console_drops_entry_in_form`). No other text is, and what a
call leaves is said exactly (`Use.farewell`, `Use.rendered`).
-/
import ScanTrace.Proofs.Reentry.Realized

namespace ScanTrace

open Session

-- ================================================================= sealing

/-- Consoles of one family are sealed together. -/
theorem isSealed_congr (st : Session) {c c' : Console} (h : c'.family = c.family) :
    st.isSealed c' = st.isSealed c := by
  unfold Session.isSealed
  rw [h]

theorem isSealed_markSealed (st : Session) (c c' : Console) :
    (st.markSealed c').isSealed c = true ↔ st.isSealed c = true ∨ c'.family = c.family := by
  show (c'.family :: st.sealedFamilies).contains c.family = true ↔ _
  rw [List.contains_cons, Bool.or_eq_true, beq_iff_eq, or_comm, @eq_comm _ c.family]
  rfl

/-- A step seals what it seals, and leaves every other family as it is. -/
theorem Move.isSealed_iff {l : Label} {m m' : Moment} (h : Move l m m') (c : Console) :
    m'.st.isSealed c = true
      ↔ m.st.isSealed c = true ∨ ∃ c' code, l = .seals c' code ∧ c'.family = c.family := by
  have hsame : ∀ {l : Label} {st st' : Session}, (∀ c' code, l ≠ .seals c' code) →
      st'.sealedFamilies = st.sealedFamilies → (st'.isSealed c = true
        ↔ st.isSealed c = true ∨ ∃ c' code, l = .seals c' code ∧ c'.family = c.family) := by
    intro l st st' hl hkeep
    unfold Session.isSealed
    rw [hkeep]
    refine ⟨.inl, ?_⟩
    rintro (hc | ⟨c', code, hlabel, -⟩)
    · exact hc
    · exact absurd hlabel (hl c' code)
  cases h with
  | @mark c' code ds fs st =>
    refine (isSealed_markSealed st c c').trans (or_congr Iff.rfl ?_)
    constructor
    · exact fun hfamily => ⟨c', code, rfl, hfamily⟩
    · rintro ⟨c'', code', hlabel, hfamily⟩
      cases hlabel
      exact hfamily
  | aside _ ha => exact hsame nofun ha.sealedFamilies
  | act => exact hsame nofun (Keeps.begin _ _).sealedFamilies
  | back => exact hsame nofun (Keeps.endCall ..).sealedFamilies
  | start u _ => exact hsame (fun _ _ hl => nomatch hl) rfl
  | ask _ => exact hsame (fun _ _ hl => nomatch hl) rfl
  | close _ => exact hsame (fun _ _ hl => nomatch hl) rfl
  | drop _ | refuse _ | form | finish => exact hsame nofun rfl

theorem Run.isSealed_iff {m m' : Moment} {trace : List Label} (h : Run m trace m')
    (c : Console) :
    m'.st.isSealed c = true ↔ m.st.isSealed c = true
      ∨ ∃ c' code, .seals c' code ∈ trace ∧ c'.family = c.family := by
  induction h with
  | nil m => simp
  | cons hmove _ ih =>
    rw [ih, hmove.isSealed_iff c]
    constructor
    · rintro ((hc | ⟨c', code, rfl, hfamily⟩) | ⟨c', code, hmem, hfamily⟩)
      · exact .inl hc
      · exact .inr ⟨c', code, List.mem_cons_self, hfamily⟩
      · exact .inr ⟨c', code, List.mem_cons_of_mem _ hmem, hfamily⟩
    · rintro (hc | ⟨c', code, hmem, hfamily⟩)
      · exact .inl (.inl hc)
      · rcases List.mem_cons.mp hmem with rfl | hmem
        · exact .inl (.inr ⟨c', code, rfl, hfamily⟩)
        · exact .inr ⟨c', code, hmem, hfamily⟩

-- ============================================================== who seals

/-- A run through an operation that asks nothing of the sink: it is still at it, and has
left some of its notices and of its texts only, or it has passed, has left them all, and
goes on as if the operation had not been. -/
def Passes (fs : List Frame) (st : Session) (ns : List Notice) (texts : List String)
    (trace : List Label) (m : Moment) : Prop :=
  ((∀ l ∈ trace, l = .silent)
      ∧ ∃ ns' texts', ns' <+: ns ∧ texts' <+: texts ∧ m.st = st.leave ns' texts')
    ∨ ∃ quiet rest, trace = quiet ++ rest ∧ (∀ l ∈ quiet, l = .silent)
        ∧ Run ⟨fs, st.leave ns texts⟩ rest m

theorem Passes.cons {fs : List Frame} {st : Session} {ns ns' : List Notice}
    {texts texts' : List String} {trace : List Label} {m : Moment}
    (h : Passes fs (st.leave ns texts) ns' texts' trace m) :
    Passes fs st (ns ++ ns') (texts ++ texts') (.silent :: trace) m := by
  rcases h with ⟨hsilent, ns'', texts'', hns, htexts, hst⟩ | ⟨quiet, rest, rfl, hsilent, hrun⟩
  · refine .inl ⟨?_, ns ++ ns'', texts ++ texts'', ?_, ?_, ?_⟩
    · exact List.forall_mem_cons.mpr ⟨rfl, hsilent⟩
    · exact (List.prefix_append_right_inj ns).mpr hns
    · exact (List.prefix_append_right_inj texts).mpr htexts
    · rw [hst, leave_leave]
  · refine .inr ⟨.silent :: quiet, rest, rfl, ?_, ?_⟩
    · exact List.forall_mem_cons.mpr ⟨rfl, hsilent⟩
    · rwa [leave_leave] at hrun

namespace Use

/-- Whether an operation goes through a console of a family. -/
def On (c : Console) : Use → Prop
  | .console c' _ => c'.family = c.family
  | .trace t _ => t.console.family = c.family
  | .sink _ => False

/-- The notices of output that is dropped. -/
def farewell : Use → List Notice
  | .console _ (.terminate code) => [.alreadyTerminated code]
  | _ => []

/-- The texts that an operation puts into form before it asks a console anything: the entry
of a tag that is traced, and no other. -/
def rendered : Use → List String
  | .trace t (.tagEntry tag inHeader) =>
    if t.isEnabled .parse then [tag.entry t.fields inHeader] else []
  | _ => []

variable {st : Session} {c : Console} {u : Use}

end Use

end ScanTrace
