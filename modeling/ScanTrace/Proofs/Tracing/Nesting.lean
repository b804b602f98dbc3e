/-
Traces of nesting, read back. A parser tells how deep it is, a preprocessor
which conditionals it is in and which branches it ignores, and each change is
one marker in the trace. Nothing stands between two markers, and the depths in
them have no fixed width; still the trace says which changes there were and in
what order.

A closing bracket ends every marker and occurs nowhere else in it, because a
depth is written in digits. So the markers of a trace can be told apart
(`Text.EndsAt.eq_of_flatMap`). One marker by itself is words, a depth and the
end. No words begin other words (`Kind.eq_of_words_prefix`), so where the depth
begins is seen before it is read, and its digits are all that is left.

What memory has of a run is the bytes of what was asked for, in order
(`TracesNesting.written`). No host is there to react, so it does not matter
what it would do (`Tracer.performAll_memory`).
-/
import ScanTrace.Proofs.Hosted.Taken
import ScanTrace.Proofs.Text.Cuts
import ScanTrace.Proofs.Tracing.Levels
import ScanTrace.Proofs.Utf8.Encoding

namespace ScanTrace

open Session

-- =========================================================== tracing to memory

section Memory

variable {dir : Option String} {st : Session}

/-- What a tracer does over memory does not depend on what a host would do. -/
theorem Deed.performAll_memory (hsink : st.sink = some (.memory dir)) (react : React) {c : Console}
    {ds : List Deed} (hds : ∀ d ∈ ds, (∃ text, d = .form text) ∨ ∃ op, d = .ask (some c) op) :
    performAll react st ds = performAll idle st ds := by
  induction ds generalizing st with
  | nil => rfl
  | cons d ds ih =>
    have hfirst : d.perform react st = d.perform idle st
        ∧ (d.perform idle st).sink = some (.memory dir) := by
      rcases hds d List.mem_cons_self with ⟨text, rfl⟩ | ⟨op, rfl⟩
      · exact ⟨rfl, hsink⟩
      · cases hs : st.isSealed c with
        | true =>
          rw [perform_ask_sealed react hs, perform_ask_sealed idle hs]
          exact ⟨rfl, hsink⟩
        | false =>
          rw [perform_ask_open react hs, perform_ask_open idle hs]
          exact ⟨SinkOp.perform_memory hsink react op, (Keeps.perform st op).sink.trans hsink⟩
    show performAll react (d.perform react st) ds = _
    rw [hfirst.1]
    exact ih hfirst.2 fun e he => hds e (List.mem_cons_of_mem _ he)

/-- Trace calls over memory do not depend on what a host would do. -/
theorem Tracer.performAll_memory (hsink : st.sink = some (.memory dir)) (react : React)
    (t : Tracer) (calls : List TraceCall) :
    t.performAll react st calls = t.performAll idle st calls := by
  rw [performAll_work, performAll_work]
  refine Deed.performAll_memory hsink react (c := t.console) ?_
  intro d hd
  obtain ⟨call, -, hd⟩ := List.mem_flatMap.mp hd
  exact (t.mem_work hd).imp_right fun ⟨op, _, heq⟩ => ⟨op, heq⟩

end Memory

-- ================================================================== markers

/-- A change of nesting. -/
inductive Nesting where
  /-- A parser went in or came out, and is now this deep. -/
  | parser (increase : Bool) (depth : UInt32)
  /-- A conditional of this depth begins or ends. -/
  | conditional (begins : Bool) (depth : UInt32)
  /-- A branch that is ignored begins or ends. -/
  | ignored (begins : Bool)
  deriving DecidableEq

namespace Nesting

/-- The trace call that reports a change. -/
def call : Nesting → TraceCall
  | .parser increase depth => .parseNest increase depth
  | .conditional begins depth => .cppNest begins depth
  | .ignored begins => .cppIgnore begins

/-- The text that the call traces. -/
def marker : Nesting → List Char
  | .parser increase depth => (TraceCall.parseNestText increase depth).toList
  | .conditional begins depth => (TraceCall.cppNestText begins depth).toList
  | .ignored begins => (TraceCall.cppIgnoreText begins).toList

/-- What is changing, the depth left out of account. -/
inductive Kind where
  | parser (increase : Bool)
  | conditional (begins : Bool)
  | ignored (begins : Bool)
  deriving DecidableEq

/-- The words of a marker, which stand in front of its depth. -/
def Kind.words : Kind → List Char
  | .parser increase => ("<*" ++ (if increase then "++" else "--") ++ "nesting:").toList
  | .conditional begins => ("<*cpp:" ++ TraceCall.edge begins ++ " level ").toList
  | .ignored begins => ("<*cpp:" ++ TraceCall.edge begins ++ " ignore").toList

def kind : Nesting → Kind
  | .parser increase _ => .parser increase
  | .conditional begins _ => .conditional begins
  | .ignored begins => .ignored begins

/-- The depth in a marker. A branch that is ignored has none. -/
def depth? : Nesting → Option UInt32
  | .parser _ depth | .conditional _ depth => some depth
  | .ignored _ => none

/-- The depth as it is written. -/
def digits (n : Nesting) : List Char :=
  n.depth?.elim [] fun depth => Text.decimal depth.toNat

theorem marker_eq (n : Nesting) : n.marker = n.kind.words ++ n.digits ++ ['*', '>'] := by
  cases n <;>
    simp [marker, kind, digits, depth?, Kind.words, TraceCall.parseNestText, TraceCall.cppNestText,
      TraceCall.cppIgnoreText, TraceCall.depthText]

theorem bracket_notMem_words (k : Kind) : '>' ∉ k.words := by
  obtain b | b | b := k <;> cases b <;> decide

theorem bracket_notMem_digits (n : Nesting) : '>' ∉ n.digits := by
  unfold digits
  cases n.depth? with
  | none => exact List.not_mem_nil
  | some depth =>
    intro h
    exact absurd (Text.isDigit_of_mem_decimal h) (by decide)

/-- The bracket at the end of a marker is the only one that closes. -/
theorem endsAt_marker (n : Nesting) : Text.EndsAt '>' n.marker := by
  refine ⟨n.kind.words ++ n.digits ++ ['*'], ?_, ?_⟩
  · simp [bracket_notMem_words, bracket_notMem_digits]
  · rw [marker_eq]
    simp

/-- No words begin other words. -/
theorem Kind.eq_of_words_prefix {k k' : Kind} (h : k.words <+: k'.words) : k = k' := by
  obtain b | b | b := k <;> obtain b' | b' | b' := k' <;> revert b b' <;> decide

theorem depth?_eq_of_digits {n m : Nesting} (h : n.digits = m.digits) : n.depth? = m.depth? := by
  unfold digits at h
  cases hn : n.depth? with
  | none =>
    cases hm : m.depth? with
    | none => rfl
    | some depth =>
      rw [hn, hm] at h
      exact absurd h.symm Nat.toDigits_ne_nil
  | some depth =>
    cases hm : m.depth? with
    | none =>
      rw [hn, hm] at h
      exact absurd h Nat.toDigits_ne_nil
    | some depth' =>
      rw [hn, hm] at h
      exact congrArg some (UInt32.toNat_inj.mp (Text.decimal_inj.mp h))

theorem eq_of_kind_of_depth? {n m : Nesting} (hkind : n.kind = m.kind)
    (hdepth : n.depth? = m.depth?) : n = m := by
  cases n <;> cases m <;> simp_all [kind, depth?]

/-- A marker is read back. -/
theorem marker_injective : marker.Injective := by
  intro n m h
  rw [marker_eq, marker_eq, List.append_assoc, List.append_assoc] at h
  have hkind : n.kind = m.kind := by
    have hfront : n.kind.words <+: m.kind.words ++ (m.digits ++ ['*', '>']) :=
      h ▸ List.prefix_append _ _
    obtain hp | hp := List.prefix_or_prefix_of_prefix hfront (List.prefix_append _ _)
    · exact Kind.eq_of_words_prefix hp
    · exact (Kind.eq_of_words_prefix hp).symm
  rw [hkind] at h
  have hdigits : n.digits = m.digits := List.append_cancel_right (List.append_cancel_left h)
  exact eq_of_kind_of_depth? hkind (depth?_eq_of_digits hdigits)

-- ================================================================= traces

/-- What a tracer that traces nesting asks of the sink for changes. -/
theorem flatMap_requests (t : Tracer) (ns : List Nesting) :
    ((ns.map call).flatMap t.requests).flatMap (·.bytesOn .stdout)
      = Utf8.encode (ns.flatMap marker) := by
  induction ns with
  | nil => rfl
  | cons n ns ih =>
    rw [List.map_cons, List.flatMap_cons, List.flatMap_append, ih, List.flatMap_cons,
      Utf8.encode_append]
    congr 1
    cases n <;> simp [call, marker, Tracer.requests, SinkOp.bytesOn, bytesOf]

end Nesting

/-- A tracer of nesting over memory, before its first call. -/
structure TracesNesting (t : Tracer) (st : Session) : Prop where
  memory : ∃ dir, st.sink = some (.memory dir)
  empty : st.store.written.get .stdout = []
  unsealed : st.isSealed t.console = false
  parse : t.isEnabled .parse = true
  cpp : t.isEnabled .cpp = true

namespace TracesNesting

variable {t : Tracer} {st : Session}

theorem isEnabled_call (h : TracesNesting t st) (n : Nesting) :
    t.isEnabled n.call.level = true := by
  cases n with
  | parser increase depth => exact h.parse
  | conditional begins depth => exact h.cpp
  | ignored begins => exact h.cpp

/-- Memory has the markers of the changes, in order. -/
theorem written (h : TracesNesting t st) (react : React) (ns : List Nesting) :
    (t.performAll react st (ns.map Nesting.call)).store.written.get .stdout
      = Utf8.encode (ns.flatMap Nesting.marker) := by
  obtain ⟨dir, hsink⟩ := h.memory
  have hcall : ∀ call ∈ ns.map Nesting.call,
      t.isEnabled call.level = true ∧ t.rendered call = [] := by
    intro call hcall
    obtain ⟨n, -, rfl⟩ := List.mem_map.mp hcall
    exact ⟨h.isEnabled_call n, by cases n <;> rfl⟩
  rw [Tracer.performAll_memory hsink, Tracer.performAll_of_enabled h.unsealed
    (fun call hmem => (hcall call hmem).1) fun call hmem => (hcall call hmem).2]
  refine (SinkOp.written_performAll_memory hsink .stdout _).trans ?_
  rw [h.empty, List.nil_append, Nesting.flatMap_requests]

end TracesNesting

/-- A trace of nesting in memory tells which changes were reported, and in what order: two
tracers leave the same bytes exactly if they were called for the same changes. -/
theorem nesting_is_read_back {t t' : Tracer} {st st' : Session} (h : TracesNesting t st)
    (h' : TracesNesting t' st') (react react' : React) (ns ns' : List Nesting) :
    (t.performAll react st (ns.map Nesting.call)).store.written.get .stdout
        = (t'.performAll react' st' (ns'.map Nesting.call)).store.written.get .stdout
      ↔ ns = ns' := by
  rw [h.written, h'.written]
  constructor
  · intro hbytes
    have hmarkers : ns.flatMap Nesting.marker = ns'.flatMap Nesting.marker :=
      Utf8.encode_injective hbytes
    exact Text.EndsAt.eq_of_flatMap Nesting.endsAt_marker Nesting.marker_injective hmarkers
  · exact fun heq => heq ▸ rfl

/-- Two depths, of which one begins the other. -/
theorem nesting_is_read_back_prefix_depth :
    let t : Tracer := { console := .main, levels := .ofList [.parse, .cpp] }
    let st : Session := { env := { tempDir := "/tmp" }, sink := some (.memory none) }
    let written : List Nesting → List UInt8 := fun ns =>
      (t.performAll idle st (ns.map Nesting.call)).store.written.get .stdout
    TracesNesting t st
      ∧ written [.parser true 1, .ignored false] ≠ written [.parser true 12, .ignored false] := by
  intro t st written
  have htraces : TracesNesting t st := ⟨⟨none, rfl⟩, rfl, rfl, by decide, by decide⟩
  refine ⟨htraces, ?_⟩
  rw [ne_eq, nesting_is_read_back htraces htraces]
  decide

end ScanTrace
