/-
Operations of consoles and tracers taken apart. What they do about the sink
is a list of deeds: each asks the sink for one thing, most of them only if
the console in between is not sealed at that moment, and one kind asks a
console to end the run. No console is in the way of the one kind that asks
for nothing: the entry of a tag is put into form before it is to be written.

The question whether a console is sealed is asked anew at each deed and
never in the middle of one. Ending a run is asked once, at its beginning
(`Deed.close`); what follows from it is the list `closing`, whose deeds ask
nothing any more. So what every request to the sink keeps is kept by every
operation, if seals and records do not matter to it (`Lasts`).
-/
import ScanTrace.Tracer
import ScanTrace.Proofs.Acts

namespace ScanTrace

-- =================================================================== deeds

/-- What a console or a tracer does about the sink. -/
inductive Deed where
  /-- Asks the sink, unless the console that guards the request is sealed. -/
  | ask (guard : Option Console) (op : SinkOp)
  /-- Asks a console to end the run. -/
  | close (c : Console) (code : Int32)
  /-- Seals a console that is ending the run. -/
  | mark (c : Console) (code : Int32)
  /-- Puts a text into form that is still to be written. -/
  | form (text : String)

namespace Deed

def perform (react : React) (st : Session) : Deed → Session
  | .ask none op => (op.perform react st).2
  | .ask (some c) op => c.guarded (fun st => (op.perform react st).2) st
  | .close c code => c.terminate react code st
  | .mark c code => (st.markSealed c).note (.terminating code)
  | .form text => st.format text

/-- Deeds, one after another. -/
def performAll (react : React) (st : Session) (deeds : List Deed) : Session :=
  deeds.foldl (perform react) st

/-- What a console that is not sealed does to end the run. -/
def closing (c : Console) (code : Int32) : List Deed :=
  [.ask none (.flush .stdout), .ask none (.flush .stderr), .mark c code,
   .ask none (.terminate code)]

variable {st : Session} {c : Console}

theorem perform_ask_open (react : React) (h : st.isSealed c = false) (op : SinkOp) :
    perform react st (.ask (some c) op) = (op.perform react st).2 := by
  show (if st.isSealed c then st else _) = _
  rw [h]
  rfl

theorem perform_ask_sealed (react : React) (h : st.isSealed c = true) (op : SinkOp) :
    perform react st (.ask (some c) op) = st := by
  show (if st.isSealed c then st else _) = _
  rw [h]
  rfl

end Deed

theorem Console.terminate_closing (react : React) {st : Session} {c : Console}
    (h : st.isSealed c = false) (code : Int32) :
    c.terminate react code st = Deed.performAll react st (Deed.closing c code) := by
  unfold Console.terminate
  rw [h]
  rfl

theorem Console.terminate_sealed (react : React) {st : Session} {c : Console}
    (h : st.isSealed c = true) (code : Int32) :
    c.terminate react code st = st.note (.alreadyTerminated code) := by
  unfold Console.terminate
  rw [h]
  rfl

-- ================================================================= lasting

/-- A property of a session that lasts through every request to the sink and does not mind
what consoles and tracers do besides. -/
structure Lasts (react : React) (P : Session → Prop) : Prop where
  request : ∀ {st}, P st → ∀ op : SinkOp, P (op.perform react st).2
  markSealed : ∀ {st}, P st → ∀ c : Console, P (st.markSealed c)
  note : ∀ {st}, P st → ∀ n : Notice, P (st.note n)
  format : ∀ {st}, P st → ∀ text : String, P (st.format text)

namespace Lasts

variable {react : React} {P : Session → Prop} {st : Session}

theorem close (hl : Lasts react P) (h : P st) (c : Console) (code : Int32) :
    P (c.terminate react code st) := by
  cases hs : st.isSealed c with
  | true =>
    rw [c.terminate_sealed react hs]
    exact hl.note h _
  | false =>
    rw [c.terminate_closing react hs]
    have hflushed := hl.request (hl.request h (.flush .stdout)) (.flush .stderr)
    have hmarked := hl.note (hl.markSealed hflushed c) (.terminating code)
    exact hl.request hmarked (.terminate code)

theorem deed (hl : Lasts react P) (h : P st) (d : Deed) : P (d.perform react st) := by
  cases d with
  | ask guard op =>
    cases guard with
    | none => exact hl.request h op
    | some c =>
      show P (if st.isSealed c then st else _)
      split_ifs
      · exact h
      · exact hl.request h op
  | close c code => exact hl.close h c code
  | mark c code => exact hl.note (hl.markSealed h c) _
  | form text => exact hl.format h text

theorem performAll (hl : Lasts react P) (h : P st) (ds : List Deed) :
    P (Deed.performAll react st ds) := by
  induction ds generalizing st with
  | nil => exact h
  | cons d ds ih => exact ih (hl.deed h d)

end Lasts

-- ================================================================= silence

namespace Session

/-- Puts texts into form, one after another. -/
def formatAll (st : Session) (texts : List String) : Session :=
  { st with formatted := st.formatted ++ texts }

/-- A session with what is left by operations that ask nothing of the sink: notices, and
texts in form. -/
def leave (st : Session) (ns : List Notice) (texts : List String) : Session :=
  (st.noteAll ns).formatAll texts

variable (st : Session)

theorem noteAll_nil : st.noteAll [] = st := by
  unfold noteAll
  rw [List.append_nil]

@[simp] theorem formatAll_nil : st.formatAll [] = st := by
  unfold formatAll
  rw [List.append_nil]

@[simp] theorem leave_nil : st.leave [] [] = st := by
  unfold leave
  rw [noteAll_nil, formatAll_nil]

theorem leave_leave (ns ns' : List Notice) (texts texts' : List String) :
    (st.leave ns texts).leave ns' texts' = st.leave (ns ++ ns') (texts ++ texts') := by
  unfold leave noteAll formatAll
  rw [List.append_assoc, List.append_assoc]

end Session

namespace Deed

/-- A deed asks nothing of the sink: a sealed console is in the way, or it only puts a text
into form. -/
def Silent (st : Session) : Deed → Prop
  | .ask (some c) _ | .close c _ => st.isSealed c = true
  | .form _ => True
  | .ask none _ | .mark .. => False

/-- The notices that a silent deed leaves. -/
def farewell : Deed → List Notice
  | .close _ code => [.alreadyTerminated code]
  | _ => []

/-- The texts that a silent deed leaves in form. -/
def formed : Deed → List String
  | .form text => [text]
  | _ => []

variable {st : Session} {c : Console}

theorem perform_silent (react : React) {d : Deed} (h : d.Silent st) :
    d.perform react st = st.leave d.farewell d.formed := by
  cases d with
  | ask guard op =>
    cases guard with
    | none => cases h
    | some c => exact (perform_ask_sealed react h op).trans st.leave_nil.symm
  | close c code =>
    exact (c.terminate_sealed react h code).trans (Session.formatAll_nil _).symm
  | mark c code => cases h
  | form text => exact congrArg (Session.formatAll · [text]) st.noteAll_nil.symm

theorem Silent.leave {d : Deed} (h : d.Silent st) (ns : List Notice) (texts : List String) :
    d.Silent (st.leave ns texts) := by
  rcases d with ⟨_ | c, op⟩ | ⟨c, code⟩ | ⟨c, code⟩ | text <;> exact h

/-- Silent deeds leave their notices and their texts and nothing else. -/
theorem performAll_silent (react : React) {ds : List Deed} (h : ∀ d ∈ ds, d.Silent st) :
    performAll react st ds = st.leave (ds.flatMap farewell) (ds.flatMap formed) := by
  induction ds generalizing st with
  | nil => exact st.leave_nil.symm
  | cons d ds ih =>
    have hd := perform_silent react (h d List.mem_cons_self)
    have hrest : ∀ e ∈ ds, e.Silent (st.leave d.farewell d.formed) :=
      fun e he => (h e (List.mem_cons_of_mem _ he)).leave _ _
    show performAll react (d.perform react st) ds = _
    rw [hd, ih hrest, Session.leave_leave, List.flatMap_cons, List.flatMap_cons]

theorem silent_asks (h : st.isSealed c = true) (ops : List SinkOp) :
    ∀ d ∈ ops.map (ask (some c)), d.Silent st := by
  intro d hd
  obtain ⟨op, -, rfl⟩ := List.mem_map.mp hd
  exact h

theorem flatMap_farewell_asks (guard : Option Console) (ops : List SinkOp) :
    (ops.map (ask guard)).flatMap farewell = [] := by
  rw [List.flatMap_map]
  exact List.flatMap_eq_nil_iff.mpr fun _ _ => rfl

theorem flatMap_formed_asks (guard : Option Console) (ops : List SinkOp) :
    (ops.map (ask guard)).flatMap formed = [] := by
  rw [List.flatMap_map]
  exact List.flatMap_eq_nil_iff.mpr fun _ _ => rfl

/-- Requests through a sealed console do nothing. -/
theorem performAll_asks_sealed (react : React) (h : st.isSealed c = true) (ops : List SinkOp) :
    performAll react st (ops.map (ask (some c))) = st := by
  rw [performAll_silent react (silent_asks h ops), flatMap_farewell_asks, flatMap_formed_asks,
    Session.leave_nil]

end Deed

-- ================================================================ consoles

namespace ConsoleOp

/-- What an operation asks of the sink while its console is not sealed. -/
def requests : ConsoleOp → List SinkOp
  | .print text | .printTelling text => [.write .stdout text]
  | .eprint text => [.write .stderr text]
  | .puts text => [.write .stdout (text ++ "\n")]
  | .putChar x => [.putChar .stdout x]
  | .write s text | .streamWriteText s text => [.write s text]
  | .writeBytes s bytes | .streamWrite s bytes | .streamWriteAll s bytes =>
    if bytes.isEmpty then [] else [.writeBytes s bytes]
  | .flush => [.flush .stdout]
  | .flushStream s | .streamFlush s => [.flush s]
  | .streamWriteChar s x => [.write s x.toString]
  | .terminate code => [.flush .stdout, .flush .stderr, .terminate code]
  | .tempDir => [.tempDir]
  | .isTerminated | .describe | .streamName _ => []

/-- The deeds of an operation. The scratch directory is named by sealed consoles
too. -/
def deeds (c : Console) : ConsoleOp → List Deed
  | .terminate code => [.close c code]
  | .tempDir => [.ask none .tempDir]
  | op => op.requests.map (.ask (some c))

/-- Whether an operation ends the run. -/
def ends : ConsoleOp → Bool
  | .terminate _ => true
  | _ => false

theorem terminate_notMem_requests {op : ConsoleOp} (hop : op.ends = false) (code : Int32) :
    .terminate code ∉ op.requests := by
  cases op with
  | terminate code => cases hop
  | writeBytes s bytes | streamWrite s bytes | streamWriteAll s bytes =>
    simp only [requests]
    split_ifs <;> simp
  | _ => simp [requests]

theorem performAll_writeBytes (react : React) (c : Console) (st : Session) (s : Stream)
    (bytes : List UInt8) :
    c.writeBytes react s bytes st
      = Deed.performAll react st
          ((if bytes.isEmpty then [] else [SinkOp.writeBytes s bytes]).map (.ask (some c))) := by
  unfold Console.writeBytes Console.guarded
  split_ifs with hsealed hempty hempty
  · rfl
  · simp [Deed.performAll, Deed.perform, Console.guarded, hsealed]
  · rfl
  · simp [Deed.performAll, Deed.perform, Console.guarded, hsealed, SinkOp.perform]

/-- An operation on a console is its deeds. -/
theorem perform_deeds (react : React) (c : Console) (st : Session) (op : ConsoleOp) :
    (op.perform react c st).2 = Deed.performAll react st (op.deeds c) := by
  cases op with
  | writeBytes s bytes => exact performAll_writeBytes react c st s bytes
  | streamWrite s bytes => exact performAll_writeBytes react c st s bytes
  | streamWriteAll s bytes => exact performAll_writeBytes react c st s bytes
  | _ => rfl

end ConsoleOp

-- ================================================================= tracers

/-- What a trace call asks of the sink while its console is not sealed, its level
left out of account. -/
def Tracer.requests (t : Tracer) : TraceCall → List SinkOp
  | .emit _ text => [.write .stdout text, .flush .stdout]
  | .emitUnit _ .endOfInput => []
  | .emitUnit _ .stringLiteral => [.write .stdout "\"string\"", .flush .stdout]
  | .emitUnit _ .charLiteral => [.write .stdout "'c'", .flush .stdout]
  | .emitUnit _ (.char c) => [.putChar .stdout c, .flush .stdout]
  | .emitUnit _ (.byte b) => [.writeBytes .stdout [b], .flush .stdout]
  | .parseNest increase depth =>
    [.write .stdout (TraceCall.parseNestText increase depth), .flush .stdout]
  | .cppNest begins depth => [.write .stdout (TraceCall.cppNestText begins depth), .flush .stdout]
  | .cppIgnore begins => [.write .stdout (TraceCall.cppIgnoreText begins), .flush .stdout]
  | .tagEntry tag inHeader => [.write .stdout (tag.entry t.fields inHeader), .flush .stdout]

theorem Tracer.terminate_notMem_requests (t : Tracer) (call : TraceCall) (code : Int32) :
    .terminate code ∉ t.requests call := by
  cases call with
  | emitUnit level unit => cases unit <;> simp [Tracer.requests]
  | _ => simp [Tracer.requests]

/-- The texts that a trace call puts into form before it asks for anything. -/
def Tracer.rendered (t : Tracer) : TraceCall → List String
  | .tagEntry tag inHeader => [tag.entry t.fields inHeader]
  | _ => []

/-- What a trace call does, its level left out of account. -/
def Tracer.work (t : Tracer) (call : TraceCall) : List Deed :=
  (t.rendered call).map .form ++ (t.requests call).map (.ask (some t.console))

/-- The deeds of a trace call, none if its level is not traced. -/
def Tracer.deeds (t : Tracer) (call : TraceCall) : List Deed :=
  if t.isEnabled call.level then t.work call else []

namespace Tracer

variable (t : Tracer) {call : TraceCall}

theorem mem_work {d : Deed} (h : d ∈ t.work call) :
    (∃ text, d = .form text) ∨ ∃ op ∈ t.requests call, d = .ask (some t.console) op := by
  rcases List.mem_append.mp h with h | h
  · obtain ⟨text, -, rfl⟩ := List.mem_map.mp h
    exact .inl ⟨text, rfl⟩
  · obtain ⟨op, hop, rfl⟩ := List.mem_map.mp h
    exact .inr ⟨op, hop, rfl⟩

/-- Behind a sealed console a trace call asks nothing of the sink. -/
theorem silent_work {st : Session} (h : st.isSealed t.console = true) :
    ∀ d ∈ t.work call, d.Silent st := by
  intro d hd
  rcases t.mem_work hd with ⟨text, rfl⟩ | ⟨op, -, rfl⟩
  · trivial
  · exact h

theorem flatMap_farewell_work (call : TraceCall) : (t.work call).flatMap Deed.farewell = [] := by
  rw [List.flatMap_eq_nil_iff]
  intro d hd
  rcases t.mem_work hd with ⟨text, rfl⟩ | ⟨op, -, rfl⟩ <;> rfl

theorem flatMap_formed_work (call : TraceCall) :
    (t.work call).flatMap Deed.formed = t.rendered call := by
  unfold work
  rw [List.flatMap_append, Deed.flatMap_formed_asks, List.append_nil, List.flatMap_map]
  exact List.flatMap_singleton' _

theorem act_work (react : React) (st : Session) (call : TraceCall) :
    t.act react st call = Deed.performAll react st (t.work call) := by
  cases call with
  | emitUnit level unit => cases unit <;> rfl
  | _ => rfl

/-- A trace call is its deeds. -/
theorem perform_deeds (react : React) (st : Session) (call : TraceCall) :
    t.perform react call st = Deed.performAll react st (t.deeds call) := by
  unfold Tracer.perform Tracer.deeds
  split_ifs
  · exact t.act_work react st call
  · rfl

end Tracer

end ScanTrace
