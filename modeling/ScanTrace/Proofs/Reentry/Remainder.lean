/-
What is left of the operations that are not over, and what a step can do to
the sink.

# Frames

A frame keeps the end of what some operation had the sink do (`LeftOf`), and
below the topmost frame every operation waits for a call, so a frame down
there has done the act that called (`Stacked`). Which acts can be due in a
frame follows from the acts that operations consist of, and those of a host
are listed once (`SinkOp.HostAct`).

# Steps

Held bytes change in one kind of step only, when an act begins, and then by
what the act is (`Act.heldAfter`). A host that is called, the host that comes
back and everything in between leave them alone, but for the acts of the
operations that were started there. Nor does anything else hand something
over, and nothing that is handed over on the sink's own account is empty
(`Act.events_begin`).
-/
import ScanTrace.Proofs.Reentry.Machine

namespace ScanTrace

open Session

-- ================================================================ what is left

/-- What is left in a frame is the end of an operation. If a call is waited for,
the act that made it is behind. -/
def Frame.LeftOf (sink : Option Sink) (f : Frame) (op : SinkOp) : Prop :=
  ∃ done, op.acts sink = done ++ f.acts ∧ (f.call.isSome = true → done ≠ [])

/-- The frames of a run: all but the topmost wait for a call, and each has something
left of an operation that the sink was asked for. -/
structure Stacked (past : List Label) (m : Moment) : Prop where
  waits : ∀ f ∈ m.frames.tail, f.call.isSome = true
  left : ∀ f ∈ m.frames, f.acts ≠ [] → ∃ op, .asks op ∈ past ∧ f.LeftOf m.st.sink op

namespace Stacked

variable {past : List Label} {l : Label} {m m' : Moment}

theorem nil (st : Session) : Stacked [] ⟨[], st⟩ where
  waits := fun _ hf => nomatch hf
  left := fun _ hf => nomatch hf

theorem waits_all (h : Stacked past m) (hw : m.Waits) : ∀ f ∈ m.frames, f.call.isSome = true := by
  obtain ⟨frames, st⟩ := m
  cases frames with
  | nil => exact fun _ hf => nomatch hf
  | cons top fs => exact List.forall_mem_cons.mpr ⟨hw, h.waits⟩

/-- A step in the topmost frame. -/
theorem top {f f' : Frame} {fs : List Frame} {st st' : Session}
    (h : Stacked past ⟨f :: fs, st⟩) (hsink : st'.sink = st.sink)
    (hleft : f'.acts ≠ [] → ∃ op, .asks op ∈ past ++ [l] ∧ f'.LeftOf st.sink op) :
    Stacked (past ++ [l]) ⟨f' :: fs, st'⟩ where
  waits := h.waits
  left := by
    intro g hg hacts
    show ∃ op, .asks op ∈ past ++ [l] ∧ g.LeftOf st'.sink op
    rw [hsink]
    rcases List.mem_cons.mp hg with rfl | hg
    · exact hleft hacts
    · obtain ⟨op, hop, hrest⟩ := h.left g (List.mem_cons_of_mem _ hg) hacts
      exact ⟨op, List.mem_append_left _ hop, hrest⟩

theorem step (h : Stacked past m) (hmove : Move l m m') : Stacked (past ++ [l]) m' := by
  have hlater : ∀ f ∈ m.frames, f.acts ≠ [] →
      ∃ op, .asks op ∈ past ++ [l] ∧ f.LeftOf m.st.sink op := by
    intro f hf hacts
    obtain ⟨op, hop, hrest⟩ := h.left f hf hacts
    exact ⟨op, List.mem_append_left _ hop, hrest⟩
  cases hmove with
  | start u hw =>
    refine ⟨h.waits_all hw, ?_⟩
    intro f hf hacts
    rcases List.mem_cons.mp hf with rfl | hf
    · exact absurd rfl hacts
    · exact hlater f hf hacts
  | aside _ ha =>
    refine ⟨h.waits, ?_⟩
    show ∀ f ∈ m.frames, f.acts ≠ [] → ∃ op, _ ∧ f.LeftOf _ op
    rw [ha.sink]
    exact hlater
  | @ask guard op ds fs st _ =>
    refine h.top rfl ?_
    exact fun _ => ⟨op, List.mem_append_right _ (List.mem_singleton_self _), [], rfl, nofun⟩
  | drop _ | refuse _ | close _ | mark | form => exact h.top rfl (absurd rfl)
  | @act a as ds fs st =>
    refine h.top (Keeps.begin _ _).sink ?_
    intro _
    obtain ⟨op, hop, done, hdone, -⟩ := hlater _ List.mem_cons_self (List.cons_ne_nil a as)
    refine ⟨op, hop, done ++ [a], ?_, fun _ => by simp⟩
    rw [hdone, List.append_assoc]
    rfl
  | @back conduct call as ds fs st =>
    refine h.top (Keeps.endCall ..).sink ?_
    intro hacts
    obtain ⟨op, hop, done, hdone, -⟩ := hlater _ List.mem_cons_self hacts
    exact ⟨op, hop, done, hdone, nofun⟩
  | finish =>
    refine ⟨fun f hf => h.waits f (List.mem_of_mem_tail hf), ?_⟩
    exact fun f hf => hlater f (List.mem_cons_of_mem _ hf)

theorem left_top (h : Stacked past m) {f : Frame} {fs : List Frame} (hframes : m.frames = f :: fs)
    (hacts : f.acts ≠ []) : ∃ op, .asks op ∈ past ∧ f.LeftOf m.st.sink op := by
  refine h.left f ?_ hacts
  rw [hframes]
  exact List.mem_cons_self

/-- What is due in the topmost frame was asked for. -/
theorem mem_acts (h : Stacked past m) {f : Frame} {fs : List Frame} (hframes : m.frames = f :: fs)
    {a : Act} (ha : a ∈ f.acts) : ∃ op, .asks op ∈ past ∧ a ∈ op.acts m.st.sink := by
  obtain ⟨op, hop, done, hdone, -⟩ := h.left_top hframes (List.ne_nil_of_mem ha)
  refine ⟨op, hop, ?_⟩
  rw [hdone]
  exact List.mem_append_right _ ha

end Stacked

theorem Run.stacked {st : Session} {trace : List Label} {m : Moment}
    (h : Run ⟨[], st⟩ trace m) : Stacked trace m :=
  h.invariant Stacked.step (Stacked.nil st)

-- ============================================================ acts of hosts

namespace SinkOp

/-- The acts that an operation of a host can consist of. -/
inductive HostAct (h : Host) : SinkOp → Act → Prop where
  | releases {op : SinkOp} (s : Stream) : HostAct h op (.release h s)
  | forms (s : Stream) (text : String) : HostAct h (.write s text) (.format text)
  | writes (s : Stream) (text : String) :
      HostAct h (.write s text) (.tell h.write (.write s text))
  | passes (s : Stream) (bytes : List UInt8) {conduct : Conduct} :
      HostAct h (.writeBytes s bytes) (.tell conduct (.writeBytes s bytes))
  | assembles (s : Stream) (bytes : List UInt8) : h.writeBytes = none →
      HostAct h (.writeBytes s bytes) (.assemble h s bytes)
  | puts (s : Stream) (c : Char) {conduct : Conduct} : h.putChar = some conduct →
      HostAct h (.putChar s c) (.tell conduct (.putChar s c))
  | spells (s : Stream) (c : Char) : h.putChar = none →
      HostAct h (.putChar s c) (.tell h.write (.write s c.toString))
  | flushes (s : Stream) : HostAct h (.flush s) (.tell h.flush (.flush s))
  | exits (code : Int32) : HostAct h (.terminate code) (.tell h.exit (.exit code))
  | asks {conduct : Conduct} : HostAct h .tempDir (.tell conduct .tempDir)
  | notes {op : SinkOp} (n : Notice) : HostAct h op (.note n)

variable {h : Host} {op : SinkOp} {a : Act}

theorem HostAct.of_mem_settleActs {s : Stream} (ha : a ∈ settleActs h s) : HostAct h op a := by
  unfold settleActs at ha
  split_ifs at ha
  · rw [List.mem_singleton.mp ha]
    exact .releases s
  · cases ha

theorem HostAct.of_mem (ha : a ∈ hostActs h op) : HostAct h op a := by
  unfold hostActs at ha
  cases op with
  | write s text =>
    rcases List.mem_append.mp ha with ha | ha
    · exact of_mem_settleActs ha
    · rcases List.mem_cons.mp ha with rfl | ha
      · exact .forms s text
      · rw [List.mem_singleton.mp ha]
        exact .writes s text
  | writeBytes s bytes =>
    dsimp only at ha
    split at ha
    · rw [List.mem_singleton.mp ha]
      exact .passes s bytes
    · next hnone =>
      rw [List.mem_singleton.mp ha]
      exact .assembles s bytes hnone
  | putChar s c =>
    rcases List.mem_append.mp ha with ha | ha
    · exact of_mem_settleActs ha
    · split at ha
      · next hput =>
        rw [List.mem_singleton.mp ha]
        exact .puts s c hput
      · next hput =>
        rw [List.mem_singleton.mp ha]
        exact .spells s c hput
  | flush s =>
    rw [List.mem_singleton.mp ha]
    exact .flushes s
  | terminate code =>
    simp only [List.mem_cons, List.not_mem_nil, or_false] at ha
    rcases ha with rfl | rfl | rfl | rfl
    · exact .releases .stdout
    · exact .releases .stderr
    · exact .notes _
    · exact .exits code
  | tempDir =>
    dsimp only at ha
    split at ha
    · cases ha
    · simp only [List.mem_cons, List.not_mem_nil, or_false] at ha
      rcases ha with rfl | rfl
      · exact .asks
      · exact .notes _
    · rw [List.mem_singleton.mp ha]
      exact .asks

/-- Bytes are put together into text only for a host that does not take bytes, and
this is then all that is done about them. -/
theorem hostActs_of_assemble {h' : Host} {s : Stream} {bytes : List UInt8}
    (ha : .assemble h' s bytes ∈ hostActs h op) :
    h.textOnly = true ∧ op = .writeBytes s bytes ∧ hostActs h op = [.assemble h s bytes] := by
  cases HostAct.of_mem ha with
  | assembles _ _ hnone =>
    refine ⟨?_, rfl, ?_⟩
    · unfold Host.textOnly
      rw [hnone]
      rfl
    · simp only [hostActs, hnone]

/-- A host is told of an empty text only if it was to be written as a text. -/
theorem write_of_tell_empty {conduct : Conduct} {s : Stream}
    (ha : .tell conduct (.write s "") ∈ hostActs h op) : conduct = h.write ∧ op = .write s "" := by
  generalize htext : "" = text at ha
  cases HostAct.of_mem ha with
  | writes => exact ⟨rfl, rfl⟩
  | spells _ c => exact absurd (congrArg String.length htext) (by simp)

end SinkOp

-- ============================================================== held bytes

/-- What an act leaves of the bytes that are held for a stream. -/
def Act.heldAfter (s : Stream) (held : List UInt8) : Act → List UInt8
  | .release _ r => if r = s then [] else held
  | .assemble _ r bytes => if r = s then (Utf8.drain (held ++ bytes)).2 else held
  | _ => held

theorem store_beginCall (st : Session) (conduct : Conduct) (call : Call) :
    (st.beginCall conduct call).1.store = st.store := by
  cases conduct <;> rfl

theorem store_endCall (st : Session) (conduct : Conduct) (call : Call) :
    (st.endCall conduct call).store = st.store := by
  unfold Session.endCall
  split <;> rfl

theorem Act.held_begin (st : Session) (a : Act) (s : Stream) :
    (a.begin st).1.store.held.get s = a.heldAfter s (st.store.held.get s) := by
  cases a with
  | release h r =>
    unfold Act.begin Act.heldAfter
    dsimp only
    split_ifs with hempty hr hr
    · subst hr
      exact List.isEmpty_iff.mp hempty
    · rfl
    · rw [store_beginCall, held_hold, if_pos hr]
    · rw [store_beginCall, held_hold, if_neg hr]
  | assemble h r bytes =>
    have hhold : (st.hold r (Utf8.drain (st.store.held.get r ++ bytes)).2).store.held.get s
        = (Act.assemble h r bytes).heldAfter s (st.store.held.get s) := by
      rw [held_hold]
      unfold Act.heldAfter
      dsimp only
      split_ifs with hr
      · rw [hr]
      · rfl
    unfold Act.begin
    dsimp only
    split_ifs
    · exact hhold
    · rw [store_beginCall, hhold]
  | tell conduct call =>
    show (st.beginCall conduct call).1.store.held.get s = _
    rw [store_beginCall]
    rfl
  | emitDirect r bytes =>
    show (st.emitDirect r bytes).store.held.get s = _
    unfold Session.emitDirect
    split_ifs
    · rfl
    · cases r <;> rfl
  | flushDirect r => cases r <;> rfl
  | format _ | collect _ _ | countFlush | keepExitCode _ | note _ => rfl

/-- Held bytes change when an act begins, and at no other step. -/
theorem Move.held {l : Label} {m m' : Moment} (h : Move l m m') (s : Stream) :
    m'.st.store.held.get s = m.st.store.held.get s
      ∨ ∃ a as ds fs, m.frames = ⟨none, a :: as, ds⟩ :: fs
        ∧ m'.st.store.held.get s = a.heldAfter s (m.st.store.held.get s) := by
  cases h with
  | @act a as ds fs st => exact .inr ⟨a, as, ds, fs, rfl, a.held_begin st s⟩
  | aside _ ha =>
    refine .inl ?_
    show PerStream.get _ s = _
    rw [ha.held]
  | back =>
    refine .inl ?_
    rw [store_endCall]
  | start _ _ | ask _ | drop _ | refuse _ | close _ | mark | form | finish => exact .inl rfl

-- ============================================================= handed over

theorem events_beginCall {conduct : Conduct} {call : Call} {st : Session} :
    (st.beginCall conduct call).1.events = st.events
      ∨ (st.beginCall conduct call).1.events = st.events ++ [.called call] := by
  cases conduct with
  | notCallable => exact .inl rfl
  | returns _ | fails _ | failsWithArgument _ => exact .inr rfl

/-- What an act hands over is what it is to tell, or a text that is not empty. -/
theorem Act.events_begin (st : Session) (a : Act) :
    (a.begin st).1.events = st.events
      ∨ ∃ call, (a.begin st).1.events = st.events ++ [.called call]
        ∧ ((∃ conduct, a = .tell conduct call) ∨ ∃ s text, call = .write s text ∧ text ≠ "") := by
  have hwrite : ∀ (st' : Session), st'.events = st.events →
      ∀ (conduct : Conduct) (s : Stream) (cs : List Char), cs ≠ [] →
      a.begin st = st'.beginCall conduct (.write s (String.ofList cs)) →
      (a.begin st).1.events = st.events
        ∨ ∃ call, (a.begin st).1.events = st.events ++ [.called call]
          ∧ ((∃ conduct, a = .tell conduct call) ∨ ∃ s text, call = .write s text ∧ text ≠ "") := by
    intro st' hevents conduct s cs hcs hbegin
    rw [hbegin, ← hevents]
    refine events_beginCall.imp_right fun hcall => ⟨_, hcall, .inr ⟨s, _, rfl, ?_⟩⟩
    intro hempty
    refine hcs ?_
    rw [← String.toList_ofList (l := cs), hempty]
    rfl
  cases a with
  | release h s =>
    by_cases hheld : (st.store.held.get s).isEmpty = true
    · have hbegin : (Act.release h s).begin st = (st, none) := if_pos hheld
      exact .inl (by rw [hbegin])
    · refine hwrite (st.hold s []) rfl h.write s _ ?_ (if_neg hheld)
      intro hnone
      generalize st.store.held.get s = held at hheld hnone
      cases held with
      | nil => exact hheld rfl
      | cons lead more => simp [Utf8.lossy] at hnone
  | assemble h s bytes =>
    by_cases hdrained : (Utf8.drain (st.store.held.get s ++ bytes)).1.isEmpty = true
    · have hbegin : (Act.assemble h s bytes).begin st = (st.hold s _, none) := if_pos hdrained
      exact .inl (by rw [hbegin]; rfl)
    · refine hwrite (st.hold s _) rfl h.write s _ ?_ (if_neg hdrained)
      exact fun hnone => hdrained (List.isEmpty_iff.mpr hnone)
  | tell conduct call =>
    exact events_beginCall.imp_right fun hcall => ⟨call, hcall, .inl ⟨conduct, rfl⟩⟩
  | emitDirect s bytes =>
    show (st.emitDirect s bytes).events = st.events ∨ _
    unfold Session.emitDirect
    split_ifs
    · exact .inl rfl
    · cases s <;> exact .inl rfl
  | flushDirect s => cases s <;> exact .inl rfl
  | format _ | collect _ _ | countFlush | keepExitCode _ | note _ => exact .inl rfl

end ScanTrace
