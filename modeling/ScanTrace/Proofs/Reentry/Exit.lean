/-
How often the exit is requested. An end of the run asks first whether its
console is sealed, then flushes both streams, and only then seals the
console. An end that is started by a host function during these flushes
finds the console open, goes through, and so does the one that it
interrupted: the sink is asked to terminate twice, and is flushed after the
first time (`terminate_in_flush_exits_twice`).

Nothing else goes wrong. If no second end begins before the first has sealed
the console (`Overlap`), the exit is requested at most once, with the code of
the end that sealed the console, and no flush comes behind it; and of the
runs that are over, the others are exactly those in which it is requested
more than once.
-/
import ScanTrace.Proofs.Reentry.ExitCalls

namespace ScanTrace

open Session
open scoped List

-- ================================================================= overlap

/-- A second end of the run begins before the first has sealed the console. -/
def Overlap (trace : List Label) : Prop :=
  ∃ past c code between c' code' rest,
    trace = past ++ .closes c code :: (between ++ .closes c' code' :: rest)
      ∧ sealings between = []

/-- Behind a request for the exit no flush is asked for. -/
def ExitLast (trace : List Label) : Prop :=
  ∀ past code rest, trace = past ++ .asks (.terminate code) :: rest →
    ∀ s, .asks (.flush s) ∉ rest

theorem Overlap.append {trace : List Label} (h : Overlap trace) (more : List Label) :
    Overlap (trace ++ more) := by
  obtain ⟨past, c, code, between, c', code', rest, rfl, hseals⟩ := h
  refine ⟨past, c, code, between, c', code', rest ++ more, ?_, hseals⟩
  rw [List.append_assoc, List.cons_append, List.append_assoc, List.cons_append]

theorem Overlap.two_le {trace : List Label} (h : Overlap trace) :
    2 ≤ (closings trace).length := by
  obtain ⟨past, c, code, between, c', code', rest, rfl, -⟩ := h
  have hsplit : closings (past ++ .closes c code :: (between ++ .closes c' code' :: rest))
      = closings past ++ code :: (closings between ++ code' :: closings rest) := by
    rw [closings_append, show closings (.closes c code :: (between ++ .closes c' code' :: rest))
      = code :: closings (between ++ .closes c' code' :: rest) from rfl, closings_append]
    rfl
  rw [hsplit]
  simp only [List.length_append, List.length_cons]
  omega

/-- While no console is sealed, an end behind another overlaps with it. -/
theorem overlap_concat {past : List Label} (hbegun : closings past ≠ [])
    (hseals : sealings past = []) (c : Console) (code : Int32) :
    Overlap (past ++ [.closes c code]) := by
  obtain ⟨code₀, hcode₀⟩ := List.exists_mem_of_ne_nil _ hbegun
  obtain ⟨l, hl, hlabel⟩ := List.mem_filterMap.mp hcode₀
  cases l with
  | closes c₀ code₁ =>
    obtain ⟨before, between, rfl⟩ := List.append_of_mem hl
    refine ⟨before, c₀, code₁, between, c, code, [], ?_, ?_⟩
    · rw [List.append_assoc, List.cons_append]
    · rw [sealings_append, List.append_eq_nil_iff] at hseals
      exact hseals.2
  | starts u | asks op | seals c₀ code₁ | silent => cases hlabel

theorem ExitLast.concat {past : List Label} (h : ExitLast past) {l : Label}
    (hl : ∀ s, l = .asks (.flush s) → exits past = []) : ExitLast (past ++ [l]) := by
  intro before code rest heq s hmem
  rcases List.eq_nil_or_concat rest with rfl | ⟨rest, l', rfl⟩
  · cases hmem
  · rw [List.concat_eq_append, ← List.cons_append, ← List.append_assoc] at heq
    obtain ⟨rfl, hlast⟩ := List.append_inj' heq rfl
    cases hlast
    rw [List.concat_eq_append] at hmem
    rcases List.mem_append.mp hmem with hmem | hmem
    · exact h before code rest rfl s hmem
    · have hnone := hl s (List.mem_singleton.mp hmem).symm
      have hexit : code ∈ exits (before ++ .asks (.terminate code) :: rest) :=
        mem_exits.mpr (List.mem_append_right _ List.mem_cons_self)
      rw [hnone] at hexit
      cases hexit

-- ============================================================ what is kept

/-- The books of a run, and what they are kept for. -/
structure Watched (c : Console) (past : List Label) (m : Moment) : Prop where
  tally : Tally c past m
  overlap : 2 ≤ (closings past).length → Overlap past
  exitLast : (closings past).length ≤ 1 → ExitLast past

theorem length_closings_concat (past : List Label) (l : Label) :
    (closings (past ++ [l])).length = (closings past).length + (closings [l]).length := by
  rw [closings_append, List.length_append]

namespace Watched

variable {c : Console} {past : List Label} {m m' : Moment} {l : Label}

theorem overlap_step (h : Watched c past m) (hmove : Move l m m')
    (htwo : 2 ≤ (closings (past ++ [l])).length) : Overlap (past ++ [l]) := by
  by_cases hbefore : 2 ≤ (closings past).length
  · exact (h.overlap hbefore).append [l]
  · rw [length_closings_concat] at htwo
    cases hmove with
    | @close c' code ds fs st hopen =>
      have hfamily := (h.tally.orderly _ List.mem_cons_self).of_close.2
      have hunsealed : st.isSealed c = false := (isSealed_congr st hfamily).symm.trans hopen
      have hbegun : closings past ≠ [] := by
        intro hnil
        rw [hnil] at htwo
        exact absurd (show 2 ≤ 0 + 1 from htwo) (by decide)
      exact overlap_concat hbegun (h.tally.unsealed hunsealed) c' code
    | start _ _ | aside _ _ | ask _ | drop _ | refuse _ | mark | form | act | back | finish =>
      exact absurd htwo hbefore

/-- After the exit was requested no flush is asked for: the console is sealed, and
who would flush without asking it would still owe the exit. -/
theorem exits_nil_of_flush (h : Tally c past m) (hone : (closings past).length ≤ 1)
    {s : Stream} (hmove : Move (.asks (.flush s)) m m') : exits past = [] := by
  by_contra hexit
  obtain ⟨howed, hsealed⟩ := h.settled hone hexit
  cases hmove with
  | @ask guard op ds fs st hopen =>
    have htop := h.orderly _ List.mem_cons_self
    cases guard with
    | none =>
      have howes := htop.owes_of_flush
      unfold owed at howed
      rw [List.flatMap_cons, List.append_eq_nil_iff] at howed
      exact howes howed.1
    | some c' =>
      have hopen' : st.isSealed c' = false := hopen c' rfl
      have hfamily : c'.family = c.family := by
        cases htop with
        | modest hds => exact (hds _ List.mem_cons_self).1
        | ending _ hds _ =>
          rcases Orderly.suffix_closing hds with heq | heq | heq | heq | heq <;> cases heq
      rw [isSealed_congr st hfamily, hsealed] at hopen'
      cases hopen'

theorem step (h : Watched c past m) (hmove : Move l m m')
    (hon : ∀ u, l = .starts u → u.On c) : Watched c (past ++ [l]) m' where
  tally := h.tally.step hmove hon
  overlap := h.overlap_step hmove
  exitLast := by
    intro hone
    rw [length_closings_concat] at hone
    have hbefore : (closings past).length ≤ 1 := by omega
    refine (h.exitLast hbefore).concat ?_
    rintro s rfl
    exact exits_nil_of_flush h.tally hbefore hmove

theorem of_run {st : Session} {trace : List Label} (h : Run ⟨[], st⟩ trace m)
    (hone : ∀ u, .starts u ∈ trace → u.On c) : Watched c trace m := by
  have hstart : Watched c [] ⟨[], st⟩ := by
    refine ⟨tally_nil c st, ?_, ?_⟩
    · exact fun htwo => absurd htwo (by decide)
    · intro _ past code rest heq
      exact absurd heq.symm (by simp)
  have hkeep := h.invariant
    (I := fun past m => (∀ u, .starts u ∈ past → u.On c) → Watched c past m)
    (fun hpast hmove hall =>
      (hpast fun u hu => hall u (List.mem_append_left _ hu)).step hmove
        fun u hu => hall u (List.mem_append_right _ (hu ▸ List.mem_singleton_self _)))
    (fun _ => hstart)
  exact hkeep hone

end Watched

-- ==================================================================== exits

/-- In a run of operations on one family of consoles, unless a second end begins
before the first has sealed the console, the exit is requested at most once,
with the code of the end that sealed the console, and no flush behind it; and
a run that is over requests it at most once only if no such two ends overlap.
The host receives no exits but those requested. -/
theorem exit_requested_once_iff {st : Session} {trace : List Label} {m : Moment}
    (h : Run ⟨[], st⟩ trace m) {c : Console} (hone : ∀ u, .starts u ∈ trace → u.On c) :
    (¬ Overlap trace → (exits trace).length ≤ 1
        ∧ (∀ code ∈ exits trace, sealings trace = [code]) ∧ ExitLast trace)
      ∧ (m.frames = [] → ((exits trace).length ≤ 1 ↔ ¬ Overlap trace))
      ∧ m.st.exitCalls <+~ st.exitCalls ++ exits trace := by
  have hwatched := Watched.of_run h hone
  have hexits := hwatched.tally.exits
  have hmarks := hwatched.tally.marks
  have hatmost : ¬ Overlap trace → (closings trace).length ≤ 1 := by
    intro hno
    by_contra htwo
    exact hno (hwatched.overlap (by omega))
  refine ⟨?_, ?_, h.exitCalls_subperm⟩
  · intro hno
    have hclosings := hatmost hno
    have hlength := hexits.length_eq
    rw [List.length_append] at hlength
    refine ⟨by omega, ?_, hwatched.exitLast hclosings⟩
    intro code hcode
    -- the one end that began has asked for the exit, and so it has sealed the console
    obtain ⟨howed, -⟩ := hwatched.tally.settled hclosings (List.ne_nil_of_mem hcode)
    have hunmarked : unmarked m.frames = [] := by
      have hle := hwatched.tally.length_unmarked_le
      rw [howed] at hle
      exact List.eq_nil_of_length_eq_zero (Nat.le_zero.mp hle)
    rw [howed, List.append_nil] at hexits
    rw [hunmarked, List.append_nil] at hmarks
    have hsame : (sealings trace).Perm (exits trace) := hmarks.trans hexits.symm
    have hsingle : exits trace = [code] := by
      have hpos := List.length_pos_of_mem hcode
      obtain ⟨code', hcode'⟩ := List.length_eq_one_iff.mp (show (exits trace).length = 1 by omega)
      rw [hcode'] at hcode ⊢
      rw [List.mem_singleton.mp hcode]
    rw [hsingle] at hsame
    exact List.perm_singleton.mp hsame
  · intro hover
    have hlength := hexits.length_eq
    rw [hover, show owed [] = [] from rfl, List.append_nil] at hlength
    constructor
    · intro honce hoverlap
      have htwo := hoverlap.two_le
      omega
    · intro hno
      have hclosings := hatmost hno
      omega

/-- One end of the run, and nothing in between. -/
theorem exit_requested_once_alone :
    let st : Session := { env := { tempDir := "/tmp" }, sink := some (.memory none) }
    ∃ trace m, Run ⟨[], st⟩ trace m ∧ m.frames = [] ∧ ¬ Overlap trace
      ∧ (exits trace).length ≤ 1 ∧ exits trace = [1] ∧ sealings trace = [1]
      ∧ ExitLast trace := by
  intro st
  let trace : List Label :=
    [.starts (.console .main (.terminate 1)), .closes .main 1, .asks (.flush .stdout), .silent,
     .asks (.flush .stderr), .silent, .seals .main 1, .asks (.terminate 1), .silent, .silent]
  have hrun : ∃ m, Run ⟨[], st⟩ trace m ∧ m.frames = [] := by
    refine ⟨_, .cons (.start _ trivial) (.cons (.close rfl) (.cons (.ask nofun) (.cons .act
      (.cons (.ask nofun) (.cons .act (.cons .mark (.cons (.ask nofun) (.cons .act
        (.cons .finish (.nil _)))))))))), rfl⟩
  obtain ⟨m, hm, hframes⟩ := hrun
  have hone : ∀ u, .starts u ∈ trace → u.On .main := by
    intro u hu
    simp only [trace, List.mem_cons, Label.starts.injEq, reduceCtorEq, or_false,
      List.not_mem_nil] at hu
    rw [hu]
    rfl
  have hno : ¬ Overlap trace := fun hoverlap => absurd hoverlap.two_le (by decide)
  obtain ⟨honce, hseal, hlast⟩ := (exit_requested_once_iff hm hone).1 hno
  exact ⟨trace, m, hm, hframes, hno, honce, rfl, hseal 1 (by decide), hlast⟩

/-- A host whose function for flushes ends the run while the run is being ended. -/
theorem terminate_in_flush_exits_twice :
    let h : Host := { write := .returns none, flush := .returns none, exit := .returns none }
    let st := Session.withSink { tempDir := "/tmp" } (.host h)
      [(.flush, [.console .main (.terminate 2)])]
    (run st [{ op := .console .main (.terminate 1) }]).2.events
      = [.called (.flush .stdout), .called (.flush .stdout), .called (.flush .stderr),
         .called (.exit 2), .reacted .flush (.code 2), .called (.flush .stderr),
         .called (.exit 1)] := by
  decide

end ScanTrace
