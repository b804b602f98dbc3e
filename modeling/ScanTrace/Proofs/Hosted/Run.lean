/-
Runs of one console over a host that does not call back. Nobody else is
there to seal the console, so whether it is sealed is known beforehand, and
what the sink is asked for is a list that can be written down before the run
(`ConsoleOp.script`): the requests of each operation until the run is ended,
and from then on only those for the scratch directory.

# Reasoning about runs

A run adds seals and notices to what the sink does. A relation between
sessions and what is known of them that survives these two, and goes along
with each request to the sink, goes along with the script (`Tracks.run`).
What a host hears, what memory collects and what waits in front of the
process are all followed in this way, and none of them looks at a console.
-/
import ScanTrace.Proofs.Deeds
import ScanTrace.Proofs.Hosted.Idle

namespace ScanTrace

open Session

-- ================================================================ scripts

namespace ConsoleOp

/-- What an operation asks of the sink, the console sealed or not. -/
def asked (isSealed : Bool) : ConsoleOp → List SinkOp
  | .tempDir => [.tempDir]
  | op => if isSealed then [] else op.requests

/-- What a run of operations asks of the sink. -/
def script : Bool → List ConsoleOp → List SinkOp
  | _, [] => []
  | isSealed, op :: rest => op.asked isSealed ++ script (isSealed || op.ends) rest

/-- Operations on a console, one after another. -/
def performAll (react : React) (c : Console) (st : Session) (ops : List ConsoleOp) : Session :=
  ops.foldl (fun st op => (op.perform react c st).2) st

/-- What holds at the end of a run that is ended last: `I` is what the requests
keep until then, `P` what the end makes of it. Of a sealed console nothing is
asked but the scratch directory, which nobody minds. -/
theorem foldl_script_ended {α : Type} {add : α → SinkOp → α} {I P : α → Prop}
    {ops : List ConsoleOp} {code : Int32} {a : α} (htemp : ∀ a, add a .tempDir = a)
    (hflush : ∀ a r, I a → I (add a (.flush r)))
    (hops : ∀ o ∈ ops, o.ends = false → ∀ op ∈ o.requests, ∀ a, I a → I (add a op))
    (hend : ∀ a k, I a → P (add a (.terminate k))) (ha : I a) :
    P ((script false (ops ++ [.terminate code])).foldl add a) := by
  have hsealed : ∀ (rest : List ConsoleOp) (a : α), (script true rest).foldl add a = a := by
    intro rest
    induction rest with
    | nil => exact fun _ => rfl
    | cons o rest ih =>
      intro a
      cases o with
      | tempDir =>
        show (script true rest).foldl add (add a .tempDir) = a
        rw [ih, htemp]
      | _ => exact ih a
  have hended : ∀ (k : Int32) (rest : List ConsoleOp) (a : α), I a →
      P ((script false (.terminate k :: rest)).foldl add a) := by
    intro k rest a ha
    show P ((script true rest).foldl add (add (add (add a _) _) (.terminate k)))
    rw [hsealed]
    exact hend _ k (hflush _ _ (hflush _ _ ha))
  induction ops generalizing a with
  | nil => exact hended code [] a ha
  | cons o ops ih =>
    cases ho : o.ends with
    | true =>
      cases o with
      | terminate k => exact hended k _ a ha
      | _ => cases ho
    | false =>
      have hfold : ∀ (asked : List SinkOp) (a : α), (∀ op ∈ asked, ∀ a, I a → I (add a op)) →
          I a → I (asked.foldl add a) := by
        intro asked
        induction asked with
        | nil => exact fun _ _ ha => ha
        | cons op asked ih =>
          intro a hkeep ha
          exact ih _ (fun q hq => hkeep q (List.mem_cons_of_mem _ hq))
            (hkeep op List.mem_cons_self a ha)
      have hrequests : ∀ op ∈ o.asked false, op ∈ o.requests := by
        intro op hop
        cases o <;> exact hop
      rw [List.cons_append, script, List.foldl_append, ho, Bool.or_false]
      refine ih (fun q hq => hops q (List.mem_cons_of_mem _ hq)) (hfold _ a ?_ ha)
      intro op hop
      exact hops o List.mem_cons_self ho op (hrequests op hop)

-- ==================================================== operations by requests

variable {c : Console} {st : Session}

theorem performAll_guarded (hopen : st.isSealed c = false) (ops : List SinkOp) :
    Deed.performAll idle st (ops.map (.ask (some c))) = SinkOp.performAll idle st ops := by
  induction ops generalizing st with
  | nil => rfl
  | cons op ops ih =>
    have hnext : (op.perform idle st).2.isSealed c = false := by
      rw [(Keeps.perform st op).isSealed, hopen]
    show Deed.performAll idle (Deed.perform idle st (.ask (some c) op)) _ = _
    rw [Deed.perform_ask_open idle hopen]
    exact ih hnext

/-- An operation that does not end the run is its requests. -/
theorem perform_asked {op : ConsoleOp} (hop : op.ends = false) :
    (op.perform idle c st).2 = SinkOp.performAll idle st (op.asked (st.isSealed c)) := by
  rw [perform_deeds]
  have hguarded : Deed.performAll idle st (op.requests.map (.ask (some c)))
      = SinkOp.performAll idle st (if st.isSealed c then [] else op.requests) := by
    cases hs : st.isSealed c with
    | false => exact performAll_guarded hs _
    | true => exact Deed.performAll_asks_sealed idle hs _
  cases op with
  | terminate code => cases hop
  | tempDir => rfl
  | _ => exact hguarded

/-- Operations that do not end the run leave the console as it was. -/
theorem keeps_performAll {ops : List ConsoleOp} (hops : ∀ o ∈ ops, o.ends = false)
    (st : Session) : Keeps st (performAll idle c st ops) := by
  induction ops generalizing st with
  | nil => exact Keeps.refl st
  | cons o ops ih =>
    have hfirst : Keeps st (o.perform idle c st).2 := by
      rw [perform_asked (hops o List.mem_cons_self)]
      exact Keeps.performAll st _
    exact hfirst.trans (ih (fun q hq => hops q (List.mem_cons_of_mem _ hq)) _)

end ConsoleOp

-- ============================================================ tracked runs

/-- A relation that goes along with what a sink is asked for and does not mind
what a console does besides. -/
structure Tracks {α : Type} (sink : Sink) (add : α → SinkOp → α)
    (R : Session → α → Prop) : Prop where
  perform : ∀ {st a}, st.sink = some sink → R st a →
    ∀ op : SinkOp, R (op.perform idle st).2 (add a op)
  markSealed : ∀ {st a}, R st a → ∀ c : Console, R (st.markSealed c) a
  note : ∀ {st a}, R st a → ∀ n : Notice, R (st.note n) a

namespace Tracks

variable {α : Type} {sink : Sink} {add : α → SinkOp → α} {R : Session → α → Prop}
  {c : Console} {st : Session} {a : α}

theorem performAll (ht : Tracks sink add R) (hsink : st.sink = some sink) (h : R st a)
    (ops : List SinkOp) : R (SinkOp.performAll idle st ops) (ops.foldl add a) := by
  induction ops generalizing st a with
  | nil => exact h
  | cons op ops ih =>
    exact ih ((Keeps.perform st op).sink.trans hsink) (ht.perform hsink h op)

/-- One operation: the relation goes on, the sink stays, and the console is
sealed if it was or if the run is ended. -/
theorem operation (ht : Tracks sink add R) (hsink : st.sink = some sink) (h : R st a)
    (op : ConsoleOp) :
    R (op.perform idle c st).2 ((op.asked (st.isSealed c)).foldl add a)
      ∧ (op.perform idle c st).2.sink = some sink
      ∧ (op.perform idle c st).2.isSealed c = (st.isSealed c || op.ends) := by
  cases hends : op.ends with
  | false =>
    rw [ConsoleOp.perform_asked hends, Bool.or_false]
    exact ⟨ht.performAll hsink h _, (Keeps.performAll st _).sink.trans hsink,
      (Keeps.performAll st _).isSealed c⟩
  | true =>
    obtain ⟨code, rfl⟩ : ∃ code, op = .terminate code := by
      cases op with
      | terminate code => exact ⟨code, rfl⟩
      | _ => cases hends
    cases hs : st.isSealed c with
    | true =>
      have hdropped : ((ConsoleOp.terminate code).perform idle c st).2
          = st.note (.alreadyTerminated code) := c.terminate_sealed idle hs code
      rw [hdropped]
      exact ⟨ht.note h _, hsink, hs⟩
    | false =>
      have hflushed := ht.performAll hsink h [.flush .stdout, .flush .stderr]
      have hkeeps := Keeps.performAll st [.flush .stdout, .flush .stderr]
      have hmarked := ht.note (ht.markSealed hflushed c) (.terminating code)
      have hsink' : (((SinkOp.performAll idle st [.flush .stdout, .flush .stderr]).markSealed
          c).note (.terminating code)).sink = some sink := hkeeps.sink.trans hsink
      show R (c.terminate idle code st) _ ∧ (c.terminate idle code st).sink = some sink
        ∧ (c.terminate idle code st).isSealed c = true
      rw [Console.terminate_closing idle hs]
      refine ⟨?_, ?_, ?_⟩
      · exact ht.perform hsink' hmarked (.terminate code)
      · exact (Keeps.perform _ (.terminate code)).sink.trans hsink'
      · refine ((Keeps.perform _ (.terminate code)).isSealed c).trans ?_
        show (c.family :: _).contains c.family = true
        simp

/-- A run of operations is its script. -/
theorem run (ht : Tracks sink add R) (hsink : st.sink = some sink) (h : R st a)
    (ops : List ConsoleOp) :
    R (ConsoleOp.performAll idle c st ops)
      ((ConsoleOp.script (st.isSealed c) ops).foldl add a) := by
  induction ops generalizing st a with
  | nil => exact h
  | cons op ops ih =>
    obtain ⟨hnext, hsink', hsealed⟩ := ht.operation (c := c) hsink h op
    rw [ConsoleOp.script, List.foldl_append, ← hsealed]
    exact ih hsink' hnext

end Tracks

end ScanTrace
