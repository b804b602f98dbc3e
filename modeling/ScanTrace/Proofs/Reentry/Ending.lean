/-
Ends of the run that are under way. Between the question whether its console
is sealed and the sealing of it, an end of the run flushes both streams, and
a host function that is called for this may start another end, which finds
the console open as well. This file counts: of a run on one family, with
traces and frames read as lists of exit codes,

- every end that began has asked the sink to terminate or still owes it
  (`Tally.exits`), and
- has sealed its console or has still to do so (`Tally.marks`).

The codes of frames come before those of the frames below them, so that each
step moves one code across an append, and each law is kept by a permutation
of at most one element.

# Orderly frames

The counting needs to know what an operation can still have to do. It is one
of two things (`Orderly`): requests that ask their console first and none of
which is for the exit, or what is left of an end, in which a request for the
exit that is not preceded by the sealing finds the console sealed.
-/
import ScanTrace.Proofs.Reentry.Sealing

namespace ScanTrace

open Session

-- ==================================================================== codes

/-- The exit codes of the ends that began in a trace. -/
def closings (trace : List Label) : List Int32 :=
  trace.filterMap fun
    | .closes _ code => some code
    | _ => none

/-- The exit codes with which consoles were sealed. -/
def sealings (trace : List Label) : List Int32 :=
  trace.filterMap fun
    | .seals _ code => some code
    | _ => none

/-- The exit codes that the sink was asked for. -/
def exits (trace : List Label) : List Int32 :=
  trace.filterMap fun
    | .asks (.terminate code) => some code
    | _ => none

def Deed.exit? : Deed → Option Int32
  | .ask _ (.terminate code) => some code
  | _ => none

def Deed.mark? : Deed → Option Int32
  | .mark _ code => some code
  | _ => none

/-- The exit codes that the sink has still to be asked for. -/
def owed (fs : List Frame) : List Int32 := fs.flatMap fun f => f.deeds.filterMap Deed.exit?

/-- The exit codes with which consoles have still to be sealed. -/
def unmarked (fs : List Frame) : List Int32 := fs.flatMap fun f => f.deeds.filterMap Deed.mark?

theorem closings_append (past more : List Label) :
    closings (past ++ more) = closings past ++ closings more := List.filterMap_append

theorem sealings_append (past more : List Label) :
    sealings (past ++ more) = sealings past ++ sealings more := List.filterMap_append

theorem exits_append (past more : List Label) :
    exits (past ++ more) = exits past ++ exits more := List.filterMap_append

theorem mem_exits {trace : List Label} {code : Int32} :
    code ∈ exits trace ↔ .asks (.terminate code) ∈ trace := by
  unfold exits
  rw [List.mem_filterMap]
  constructor
  · rintro ⟨l, hl, hcode⟩
    split at hcode
    · cases hcode
      exact hl
    · cases hcode
  · exact fun hl => ⟨_, hl, rfl⟩

-- ========================================================== orderly frames

/-- A request that asks a console of a family first and is not for the exit, or one
for the scratch directory, or a text that is put into form. -/
def Deed.Modest (c : Console) : Deed → Prop
  | .ask (some c') op => c'.family = c.family ∧ ∀ code, op ≠ .terminate code
  | .ask none op => op = .tempDir
  | .form _ => True
  | .close .. | .mark .. => False

/-- What an operation on a family can still have to do. -/
inductive Orderly (c : Console) (isSealed : Bool) : List Deed → Prop where
  | modest {ds : List Deed} : (∀ d ∈ ds, d.Modest c) → Orderly c isSealed ds
  | close {c' : Console} (code : Int32) : c'.family = c.family →
      Orderly c isSealed [.close c' code]
  | ending {c' : Console} {code : Int32} {ds : List Deed} : c'.family = c.family →
      ds <:+ Deed.closing c' code → (.mark c' code ∈ ds ∨ isSealed = true) →
      Orderly c isSealed ds

/-- Requests of a console are modest if none of them is for the exit. -/
theorem Deed.modest_asks {c c' : Console} (hc : c'.family = c.family) {ops : List SinkOp}
    (hops : ∀ code, .terminate code ∉ ops) :
    ∀ d ∈ ops.map (Deed.ask (some c')), d.Modest c := by
  intro d hd
  obtain ⟨op, hop, rfl⟩ := List.mem_map.mp hd
  refine ⟨hc, ?_⟩
  rintro code rfl
  exact hops code hop

section Shapes

variable {c : Console} {isSealed : Bool} {ds : List Deed}

namespace Orderly

theorem nil : Orderly c isSealed [] := .modest fun _ hd => nomatch hd

theorem sealed (h : Orderly c isSealed ds) : Orderly c true ds := by
  cases h with
  | modest hds => exact .modest hds
  | close code hc => exact .close code hc
  | ending hc hds _ => exact .ending hc hds (.inr rfl)

/-- What is left of an end is one of its tails. -/
theorem suffix_closing {c : Console} {code : Int32} (h : ds <:+ Deed.closing c code) :
    ds = Deed.closing c code
      ∨ ds = [.ask none (.flush .stderr), .mark c code, .ask none (.terminate code)]
      ∨ ds = [.mark c code, .ask none (.terminate code)]
      ∨ ds = [.ask none (.terminate code)] ∨ ds = [] := by
  simp only [Deed.closing, List.suffix_cons_iff, List.suffix_nil] at h
  exact h

end Orderly

/-- An operation on a family begins with an end or has none in it. -/
theorem Use.modest_or_close {u : Use} {c : Console} (hu : u.On c) :
    (∀ d ∈ u.deeds, d.Modest c)
      ∨ ∃ c' code, c'.family = c.family ∧ u.deeds = [.close c' code] := by
  cases u with
  | sink op => cases hu
  | trace t call =>
    refine .inl ?_
    show ∀ d ∈ t.deeds call, d.Modest c
    unfold Tracer.deeds
    split_ifs
    · intro d hd
      rcases t.mem_work hd with ⟨text, rfl⟩ | ⟨op, hop, rfl⟩
      · trivial
      · exact ⟨hu, fun code heq => t.terminate_notMem_requests call code (heq ▸ hop)⟩
    · exact fun _ hd => nomatch hd
  | console c' op =>
    cases hends : op.ends with
    | true =>
      cases op with
      | terminate code => exact .inr ⟨c', code, hu, rfl⟩
      | _ => cases hends
    | false =>
      have hasks := Deed.modest_asks hu (op.terminate_notMem_requests hends)
      refine .inl ?_
      cases op with
      | terminate code => cases hends
      | tempDir => exact fun d hd => (List.mem_singleton.mp hd) ▸ rfl
      | _ => exact hasks

namespace Orderly

theorem use {u : Use} (hu : u.On c) : Orderly c isSealed u.deeds := by
  rcases u.modest_or_close hu with hmodest | ⟨c', code, hc, hdeeds⟩
  · exact .modest hmodest
  · rw [hdeeds]
    exact .close code hc

/-- Behind a request there is what was left of the operation. -/
theorem of_ask {guard : Option Console} {op : SinkOp}
    (h : Orderly c isSealed (.ask guard op :: ds)) : Orderly c isSealed ds := by
  cases h with
  | modest hds => exact .modest fun d hd => hds d (List.mem_cons_of_mem _ hd)
  | @ending c' code ds hc hds hmark =>
    refine .ending hc ((List.suffix_cons _ _).trans hds) ?_
    rcases hmark with hmark | hsealed
    · rcases List.mem_cons.mp hmark with heq | hmark
      · cases heq
      · exact .inl hmark
    · exact .inr hsealed

/-- A text is put into form by an operation that does not end the run. -/
theorem of_form {text : String} (h : Orderly c isSealed (.form text :: ds)) :
    Orderly c isSealed ds := by
  cases h with
  | modest hds => exact .modest fun d hd => hds d (List.mem_cons_of_mem _ hd)
  | ending hc hds _ =>
    rcases suffix_closing hds with heq | heq | heq | heq | heq <;> cases heq

/-- Behind the beginning of an end there is nothing. -/
theorem of_close {c' : Console} {code : Int32}
    (h : Orderly c isSealed (.close c' code :: ds)) : ds = [] ∧ c'.family = c.family := by
  cases h with
  | modest hds => exact (hds _ List.mem_cons_self).elim
  | close code hc => exact ⟨rfl, hc⟩
  | ending hc hds _ =>
    rcases suffix_closing hds with heq | heq | heq | heq | heq <;> cases heq

/-- Behind the sealing of a console there is the request for the exit. -/
theorem of_mark {c' : Console} {code : Int32}
    (h : Orderly c isSealed (.mark c' code :: ds)) :
    ds = [.ask none (.terminate code)] ∧ c'.family = c.family := by
  cases h with
  | modest hds => exact (hds _ List.mem_cons_self).elim
  | ending hc hds _ =>
    rcases suffix_closing hds with heq | heq | heq | heq | heq <;> cases heq
    exact ⟨rfl, hc⟩

/-- A flush that asks no console belongs to an end that has still to ask for the
exit. -/
theorem owes_of_flush {s : Stream} (h : Orderly c isSealed (.ask none (.flush s) :: ds)) :
    (.ask none (.flush s) :: ds : List Deed).filterMap Deed.exit? ≠ [] := by
  cases h with
  | modest hds => cases hds _ List.mem_cons_self
  | ending hc hds _ =>
    rcases suffix_closing hds with heq | heq | heq | heq | heq <;> cases heq
    · exact List.cons_ne_nil _ _
    · exact List.cons_ne_nil _ _

theorem filterMap_modest (h : ∀ d ∈ ds, d.Modest c) :
    ds.filterMap Deed.exit? = [] ∧ ds.filterMap Deed.mark? = [] := by
  rw [List.filterMap_eq_nil_iff, List.filterMap_eq_nil_iff]
  refine ⟨?_, ?_⟩ <;> intro d hd <;> have hmodest := h d hd
  · rcases d with ⟨_ | c', op⟩ | ⟨c', code⟩ | ⟨c', code⟩ | text
    · rw [show op = .tempDir from hmodest]
      rfl
    · cases op with
      | terminate code => exact absurd rfl (hmodest.2 code)
      | _ => rfl
    · rfl
    · rfl
    · rfl
  · rcases d with ⟨_ | c', op⟩ | ⟨c', code⟩ | ⟨c', code⟩ | text
    · rfl
    · rfl
    · rfl
    · exact hmodest.elim
    · rfl

/-- Who has still to seal a console has still to ask for the exit. -/
theorem length_marks_le (h : Orderly c isSealed ds) :
    (ds.filterMap Deed.mark?).length ≤ (ds.filterMap Deed.exit?).length := by
  cases h with
  | modest hds =>
    rw [(filterMap_modest hds).2]
    exact Nat.zero_le _
  | close code hc => exact Nat.le_refl 0
  | ending hc hds _ =>
    rcases suffix_closing hds with rfl | rfl | rfl | rfl | rfl
    · exact Nat.le_refl 1
    · exact Nat.le_refl 1
    · exact Nat.le_refl 1
    · exact Nat.zero_le 1
    · exact Nat.le_refl 0

end Orderly

end Shapes

-- =================================================================== tally

/-- The books of a run on one family. -/
structure Tally (c : Console) (past : List Label) (m : Moment) : Prop where
  orderly : ∀ f ∈ m.frames, Orderly c (m.st.isSealed c) f.deeds
  exits : (exits past ++ owed m.frames).Perm (closings past)
  marks : (sealings past ++ unmarked m.frames).Perm (closings past)
  unsealed : m.st.isSealed c = false → sealings past = []

theorem tally_nil (c : Console) (st : Session) : Tally c [] ⟨[], st⟩ where
  orderly := fun _ hf => nomatch hf
  exits := .nil
  marks := .nil
  unsealed := fun _ => rfl

/-- A law of the books is kept when what comes in on one side comes in on the
other. -/
theorem perm_step {done next new due due' rest begun : List Int32}
    (h : (done ++ (due ++ rest)).Perm begun) (hstep : next ++ due' = new ++ due) :
    ((done ++ next) ++ (due' ++ rest)).Perm (begun ++ new) := by
  rw [List.perm_iff_count] at h ⊢
  intro code
  have hbooks := h code
  have hcodes := congrArg (List.count code) hstep
  simp only [List.count_append] at hbooks hcodes ⊢
  omega

namespace Tally

variable {c : Console} {past : List Label} {m m' : Moment} {l : Label}

/-- A step in the topmost frame that leaves the seals as they are. -/
theorem top {f f' : Frame} {fs : List Frame} {st st' : Session}
    (h : Tally c past ⟨f :: fs, st⟩) (hsealed : st'.isSealed c = st.isSealed c)
    (horderly : Orderly c (st.isSealed c) f'.deeds)
    (hexits : ScanTrace.exits [l] ++ f'.deeds.filterMap Deed.exit?
      = closings [l] ++ f.deeds.filterMap Deed.exit?)
    (hmarks : sealings [l] ++ f'.deeds.filterMap Deed.mark?
      = closings [l] ++ f.deeds.filterMap Deed.mark?)
    (hseals : sealings [l] = []) : Tally c (past ++ [l]) ⟨f' :: fs, st'⟩ where
  orderly := by
    intro g hg
    show Orderly c (st'.isSealed c) g.deeds
    rw [hsealed]
    rcases List.mem_cons.mp hg with rfl | hg
    · exact horderly
    · exact h.orderly g (List.mem_cons_of_mem _ hg)
  exits := by
    rw [exits_append, closings_append]
    exact perm_step h.exits hexits
  marks := by
    rw [sealings_append, closings_append]
    exact perm_step h.marks hmarks
  unsealed := by
    intro hopen
    rw [sealings_append, hseals, List.append_nil]
    exact h.unsealed (hsealed ▸ hopen)

/-- A step that leaves the frames' deeds and the seals as they are. -/
theorem same (h : Tally c past m) (hframes : m'.frames.map (·.deeds) = m.frames.map (·.deeds))
    (hsealed : m'.st.isSealed c = m.st.isSealed c) : Tally c (past ++ [.silent]) m' := by
  have howed : ∀ fs : List Frame,
      owed fs = (fs.map (·.deeds)).flatMap (·.filterMap Deed.exit?)
        ∧ unmarked fs = (fs.map (·.deeds)).flatMap (·.filterMap Deed.mark?) := by
    intro fs
    unfold owed unmarked
    rw [List.flatMap_map, List.flatMap_map]
    exact ⟨rfl, rfl⟩
  have hnone : ScanTrace.exits (past ++ [.silent]) = ScanTrace.exits past
      ∧ sealings (past ++ [.silent]) = sealings past
      ∧ closings (past ++ [.silent]) = closings past := by
    rw [exits_append, sealings_append, closings_append]
    exact ⟨List.append_nil _, List.append_nil _, List.append_nil _⟩
  obtain ⟨he, hs, hc⟩ := hnone
  refine ⟨?_, ?_, ?_, ?_⟩
  · intro f hf
    have hdeeds : f.deeds ∈ m.frames.map (·.deeds) := hframes ▸ List.mem_map_of_mem hf
    obtain ⟨g, hg, heq⟩ := List.mem_map.mp hdeeds
    rw [hsealed, ← heq]
    exact h.orderly g hg
  · rw [he, hc, (howed m'.frames).1, hframes, ← (howed m.frames).1]
    exact h.exits
  · rw [hs, hc, (howed m'.frames).2, hframes, ← (howed m.frames).2]
    exact h.marks
  · rw [hs, hsealed]
    exact h.unsealed

theorem start (h : Tally c past m) {u : Use} (hu : u.On c) :
    Tally c (past ++ [.starts u]) (m.start u) := by
  have hcodes : u.deeds.filterMap Deed.exit? = [] ∧ u.deeds.filterMap Deed.mark? = [] := by
    rcases u.modest_or_close hu with hmodest | ⟨c', code, -, hdeeds⟩
    · exact Orderly.filterMap_modest hmodest
    · rw [hdeeds]
      exact ⟨rfl, rfl⟩
  refine ⟨?_, ?_, ?_, ?_⟩
  · intro f hf
    rcases List.mem_cons.mp hf with rfl | hf
    · exact Orderly.use hu
    · exact h.orderly f hf
  · rw [exits_append, closings_append]
    have hdue : (ScanTrace.exits past ++ ([] ++ owed m.frames)).Perm (closings past) := h.exits
    exact perm_step hdue hcodes.1
  · rw [sealings_append, closings_append]
    have hdue : (sealings past ++ ([] ++ unmarked m.frames)).Perm (closings past) := h.marks
    exact perm_step hdue hcodes.2
  · rw [sealings_append]
    intro hopen
    rw [h.unsealed hopen]
    rfl

/-- The console is sealed by the end that had still to seal it. -/
theorem mark {c' : Console} {code : Int32} {ds : List Deed} {fs : List Frame} {st : Session}
    (h : Tally c past ⟨⟨none, [], .mark c' code :: ds⟩ :: fs, st⟩) :
    Tally c (past ++ [.seals c' code])
      ⟨⟨none, [], ds⟩ :: fs, (st.markSealed c').note (.terminating code)⟩ := by
  obtain ⟨rfl, hc⟩ := (h.orderly _ List.mem_cons_self).of_mark
  have hsealed : ((st.markSealed c').note (.terminating code)).isSealed c = true :=
    (isSealed_markSealed st c c').mpr (.inr hc)
  refine ⟨?_, ?_, ?_, ?_⟩
  · intro f hf
    show Orderly c (((st.markSealed c').note (.terminating code)).isSealed c) f.deeds
    rw [hsealed]
    rcases List.mem_cons.mp hf with rfl | hf
    · have hsuffix : [.ask none (.terminate code)] <:+ Deed.closing c' code :=
        ⟨[.ask none (.flush .stdout), .ask none (.flush .stderr), .mark c' code], rfl⟩
      exact .ending hc hsuffix (.inr rfl)
    · exact (h.orderly f (List.mem_cons_of_mem _ hf)).sealed
  · rw [exits_append, closings_append]
    exact perm_step h.exits rfl
  · rw [sealings_append, closings_append]
    exact perm_step h.marks rfl
  · intro hopen
    rw [hsealed] at hopen
    cases hopen

theorem step (h : Tally c past m) (hmove : Move l m m') (hon : ∀ u, l = .starts u → u.On c) :
    Tally c (past ++ [l]) m' := by
  cases hmove with
  | start u _ => exact h.start (hon u rfl)
  | aside _ ha =>
    refine h.same rfl ?_
    unfold Session.isSealed
    rw [ha.sealedFamilies]
  | @ask guard op ds fs st hopen =>
    have horderly := (h.orderly _ List.mem_cons_self).of_ask
    refine h.top rfl horderly ?_ rfl rfl
    cases op <;> rfl
  | @drop c' op ds fs st hsealed =>
    have htop := h.orderly _ List.mem_cons_self
    have hnone : Deed.exit? (.ask (some c') op) = none := by
      cases htop with
      | modest hds =>
        cases op with
        | terminate code => exact absurd rfl ((hds _ List.mem_cons_self).2 code)
        | _ => rfl
      | ending _ hds _ =>
        rcases Orderly.suffix_closing hds with heq | heq | heq | heq | heq <;> cases heq
    refine h.top rfl htop.of_ask ?_ rfl rfl
    rw [List.filterMap_cons_none hnone]
    rfl
  | @refuse c' code ds fs st hsealed =>
    obtain ⟨rfl, -⟩ := (h.orderly _ List.mem_cons_self).of_close
    exact h.top rfl .nil rfl rfl rfl
  | @close c' code ds fs st hopen =>
    obtain ⟨rfl, hc⟩ := (h.orderly _ List.mem_cons_self).of_close
    exact h.top rfl (.ending hc List.suffix_rfl (.inl (by simp [Deed.closing]))) rfl rfl rfl
  | mark => exact h.mark
  | form => exact h.top rfl (h.orderly _ List.mem_cons_self).of_form rfl rfl rfl
  | @act a as ds fs st => exact h.same rfl ((Keeps.begin st a).isSealed c)
  | @back conduct call as ds fs st => exact h.same rfl ((Keeps.endCall conduct call st).isSealed c)
  | @finish fs st =>
    refine ⟨?_, ?_, ?_, ?_⟩
    · exact fun f hf => h.orderly f (List.mem_cons_of_mem _ hf)
    · rw [exits_append, closings_append]
      show ((_ ++ ScanTrace.exits [.silent]) ++ ([] ++ owed fs)).Perm (_ ++ closings [.silent])
      exact perm_step h.exits rfl
    · rw [sealings_append, closings_append]
      show ((_ ++ sealings [.silent]) ++ ([] ++ unmarked fs)).Perm (_ ++ closings [.silent])
      exact perm_step h.marks rfl
    · rw [sealings_append, show sealings [.silent] = [] from rfl, List.append_nil]
      exact h.unsealed

-- ====================================================== after the last end

theorem length_unmarked_le (h : Tally c past m) :
    (unmarked m.frames).length ≤ (owed m.frames).length := by
  have hframes := h.orderly
  generalize m.frames = fs at hframes ⊢
  induction fs with
  | nil => exact Nat.le_refl 0
  | cons f fs ih =>
    have htop := (hframes f List.mem_cons_self).length_marks_le
    have hrest := ih fun g hg => hframes g (List.mem_cons_of_mem _ hg)
    unfold unmarked owed at hrest ⊢
    rw [List.flatMap_cons, List.flatMap_cons, List.length_append, List.length_append]
    omega

/-- When no more than one end began, and the sink was asked for the exit, no end is
under way any more, and the console is sealed. -/
theorem settled (h : Tally c past m) (hone : (closings past).length ≤ 1)
    (hexit : ScanTrace.exits past ≠ []) : owed m.frames = [] ∧ m.st.isSealed c = true := by
  have hpos := List.length_pos_iff.mpr hexit
  have hexits := h.exits.length_eq
  have hmarks := h.marks.length_eq
  have hle := h.length_unmarked_le
  rw [List.length_append] at hexits hmarks
  refine ⟨List.eq_nil_of_length_eq_zero (by omega), ?_⟩
  by_contra hopen
  have hnone := h.unsealed (Bool.eq_false_of_not_eq_true hopen)
  rw [hnone, List.length_nil] at hmarks
  omega

end Tally

end ScanTrace
