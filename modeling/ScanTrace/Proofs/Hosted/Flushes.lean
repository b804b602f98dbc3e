/-
Flushes counted. A sink flushes a stream when it is asked to and at no other
time: no text releases a flush with it, nor does the end of a run, which the
console in front of the sink asks to flush before it. So the number of
flushes is the number of requests for one, whatever else is asked for in
between. Memory keeps one count for both streams; of a host each flush is a
call.
-/
import ScanTrace.Proofs.Hosted.Run
import ScanTrace.Proofs.Reentry.Remainder

namespace ScanTrace

open Session

/-- The flushes of a stream that an operation asks for. -/
def SinkOp.flushesOn (s : Stream) : SinkOp → Nat
  | .flush r => if r = s then 1 else 0
  | .write .. | .writeBytes .. | .putChar .. | .terminate _ | .tempDir => 0

/-- How often the host was called to flush a stream. -/
def Session.flushCalls (st : Session) (s : Stream) : Nat :=
  st.events.count (.called (.flush s))

-- ================================================================== memory

theorem tracks_flushes_memory (dir : Option String) :
    Tracks (.memory dir) (fun n op => n + (op.flushesOn .stdout + op.flushesOn .stderr))
      (fun st n => st.store.flushes = n) where
  perform := by
    intro st n hsink hn op
    rw [SinkOp.perform_memoryActs hsink]
    cases op with
    | flush r =>
      cases r <;> exact congrArg (· + 1) hn
    | _ => exact hn
  markSealed hn _ := hn
  note hn _ := hn

-- =================================================================== hosts

/-- An act that is not a flush of the stream does not flush it. -/
theorem Act.flushCalls_perform {s : Stream} {a : Act}
    (ha : ∀ conduct, a ≠ .tell conduct (.flush s)) (st : Session) :
    (a.perform idle st).flushCalls s = st.flushCalls s := by
  obtain ⟨ns, hperform⟩ := a.perform_idle st
  rw [hperform]
  show (a.begin st).1.events.count _ = st.events.count _
  obtain hsame | ⟨call, hevents, hcause⟩ := a.events_begin st
  · rw [hsame]
  · have hcall : call ≠ .flush s := by
      rintro rfl
      obtain ⟨conduct, htell⟩ | ⟨r, text, hwrite, -⟩ := hcause
      · exact ha conduct htell
      · cases hwrite
    have hnone : [Event.called call].count (.called (.flush s)) = 0 :=
      List.count_eq_zero.mpr fun hmem => hcall (Event.called.inj (List.mem_singleton.mp hmem)).symm
    rw [hevents, List.count_append, hnone, Nat.add_zero]

theorem Act.flushCalls_performAll {s : Stream} {acts : List Act}
    (hacts : ∀ a ∈ acts, ∀ conduct, a ≠ .tell conduct (.flush s)) (st : Session) :
    (Act.performAll idle st acts).flushCalls s = st.flushCalls s := by
  induction acts generalizing st with
  | nil => rfl
  | cons a acts ih =>
    show (Act.performAll idle (a.perform idle st) acts).flushCalls s = _
    rw [ih (fun b hb => hacts b (List.mem_cons_of_mem _ hb)),
      Act.flushCalls_perform (hacts a List.mem_cons_self)]

/-- Of the operations only a flush of the stream has an act that flushes it. -/
theorem SinkOp.eq_flush_of_mem_hostActs {h : Host} {op : SinkOp} {conduct : Conduct} {s : Stream}
    (ha : .tell conduct (.flush s) ∈ hostActs h op) : op = .flush s := by
  cases HostAct.of_mem ha with
  | flushes => rfl

/-- A host that does not call back is called to flush a stream as often as its sink is
asked to. -/
theorem tracks_flushCalls {h : Host} (hf : h.flush ≠ .notCallable) (s : Stream) :
    Tracks (.host h) (fun n op => n + op.flushesOn s) (fun st n => st.flushCalls s = n) where
  perform := by
    intro st n hsink hn op
    rw [SinkOp.perform_hostActs hsink]
    by_cases hop : op = .flush s
    · subst hop
      show (st.callHost idle h.flush (.flush s)).flushCalls s = n + if s = s then 1 else 0
      rw [if_pos rfl, ← hn]
      unfold flushCalls
      rw [events_callHost hf, List.count_append, List.count_singleton_self]
    · have hnone : op.flushesOn s = 0 := by
        cases op with
        | flush r => exact if_neg fun hr => hop (congrArg SinkOp.flush hr)
        | _ => rfl
      show (Act.performAll idle st (SinkOp.hostActs h op)).flushCalls s = n + op.flushesOn s
      rw [hnone, Nat.add_zero, ← hn]
      refine Act.flushCalls_performAll ?_ st
      rintro a ha conduct rfl
      exact hop (SinkOp.eq_flush_of_mem_hostActs ha)
  markSealed hn _ := hn
  note hn _ := hn

end ScanTrace
