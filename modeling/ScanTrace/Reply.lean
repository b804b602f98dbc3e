/-
What a step of a program is answered, and what can go wrong with one.

Output itself never fails: a lost text is lost without a word. What fails is
the setting up, when a sink is asked for that is not there yet or cannot be
replaced any more, and a call whose arguments do not fit. The library has
words of its own for the first two; a call that does not fit is the affair
of the scripting language, which has its own.
-/
import ScanTrace.Embedding.Value
import ScanTrace.FieldSet
import ScanTrace.LevelSet

namespace ScanTrace

/-- Why a step could not be done. -/
inductive Failure where
  | rejected (why : Rejection)
  | notInstalled
  /-- The process has its sink for good. -/
  | alreadyInstalled
  /-- The arguments of a call do not fit. -/
  | argument (fault : Embedding.ArgumentFault)
  /-- There is no tracer under the number given. -/
  | noTracer
  /-- A tracer has no method of this name. -/
  | noMethod
  deriving DecidableEq

/-- What a user is told about a failure, where the library has words for it. -/
def Failure.message? : Failure → Option String
  | .rejected why => some why.message
  | .notInstalled => some "output sink has not been installed"
  | .alreadyInstalled =>
    some "output sink is already installed and cannot be replaced mid-run"
  | .argument _ | .noTracer | .noMethod => none

inductive Reply where
  /-- The step was done, and there is nothing to say. -/
  | done
  | flag (b : Bool)
  | text (s : String)
  | count (n : Nat)
  | code (c : Int32)
  /-- The settings of a tracer, and whether its console is sealed. -/
  | tracer (levels : LevelSet) (fields : FieldSet) (isSealed : Bool)
  | installed
  | failed (why : Failure)
  deriving DecidableEq

end ScanTrace
