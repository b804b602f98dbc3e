/-
The two output streams, and one value for each of them.

`PerStream` is what a sink keeps twice: collected bytes, bytes held back.
Reading after writing is settled by two lemmas, one for the stream that was
written and one for the other, and these are all that the independence of
the streams rests on.
-/

namespace ScanTrace

-- ========================================================= the two streams

inductive Stream where
  | stdout
  | stderr
  deriving DecidableEq

namespace Stream

/-- The name under which a host is told of a stream. -/
def name : Stream → String
  | .stdout => "stdout"
  | .stderr => "stderr"

/-- Both streams, in the order in which they are flushed at the end of a run. -/
def all : List Stream := [.stdout, .stderr]

end Stream

-- =============================================== one value for each stream

/-- A value for standard output and one for standard error. -/
structure PerStream (α : Type) where
  stdout : α
  stderr : α
  deriving DecidableEq

namespace PerStream

variable {α : Type}

def get (p : PerStream α) : Stream → α
  | .stdout => p.stdout
  | .stderr => p.stderr

/-- Another value for a stream, the other stream's kept. -/
def set (p : PerStream α) (s : Stream) (a : α) : PerStream α :=
  match s with
  | .stdout => { p with stdout := a }
  | .stderr => { p with stderr := a }

@[simp] theorem get_set_self (p : PerStream α) (s : Stream) (a : α) :
    (p.set s a).get s = a := by cases s <;> rfl

theorem get_set_of_ne (p : PerStream α) {s t : Stream} (a : α) (h : t ≠ s) :
    (p.set s a).get t = p.get t := by
  cases s <;> cases t <;> simp_all [get, set]

end PerStream

end ScanTrace
