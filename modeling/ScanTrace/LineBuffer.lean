/-
The buffer in front of a process's standard output. It holds bytes back
until their line is complete, until it has no room for more, or until it is
flushed, and it neither changes bytes nor moves them. So all that there is
to keep is how many of the bytes written last still wait in it; what has
left is the rest, `sent`.

# When bytes leave

A piece of output with a line end in it sends all that waits and itself up
to its last line end; only what stands behind that may wait. A piece
without one waits beside the others as long as there is room for it. When
there is none, the others are sent and it waits alone, unless it would fill
the whole buffer by itself, which sends it too.

What has been sent is never taken back, however output goes on
(`sent_prefix_sent_write`). What waits when a process ends is lost, if the
process does not flush.
-/

namespace ScanTrace

/-- The bytes that wait in front of standard output, by their number. -/
structure LineBuffer where
  waiting : Nat := 0
  deriving DecidableEq

namespace LineBuffer

-- ============================================================== operations

/-- How many bytes can wait. -/
def capacity : Nat := 1024

def lineEnd : UInt8 := 0x0A

/-- The bytes behind the last line end, all of them if there is none. -/
def unended (bytes : List UInt8) : List UInt8 :=
  (bytes.reverse.takeWhile (· != lineEnd)).reverse

def flush (_ : LineBuffer) : LineBuffer := {}

/-- Takes a number of bytes without a line end. -/
def hold (n : Nat) (b : LineBuffer) : LineBuffer :=
  if capacity ≤ n then {}
  else if b.waiting + n ≤ capacity then ⟨b.waiting + n⟩
  else ⟨n⟩

def write (bytes : List UInt8) (b : LineBuffer) : LineBuffer :=
  if bytes.contains lineEnd then b.flush.hold (unended bytes).length
  else b.hold bytes.length

/-- The part of the bytes written that has left. -/
def sent (b : LineBuffer) (written : List UInt8) : List UInt8 :=
  written.take (written.length - b.waiting)

-- ==================================================================== laws

theorem length_unended_le (bytes : List UInt8) : (unended bytes).length ≤ bytes.length := by
  have h := (List.takeWhile_sublist (l := bytes.reverse) (· != lineEnd)).length_le
  simpa [unended] using h

theorem waiting_hold_le (b : LineBuffer) (n : Nat) : (b.hold n).waiting ≤ b.waiting + n := by
  unfold hold
  split
  · exact Nat.zero_le _
  · split
    · exact Nat.le_refl _
    · exact Nat.le_add_left _ _

theorem waiting_hold_le_capacity (b : LineBuffer) (n : Nat) :
    (b.hold n).waiting ≤ capacity := by
  unfold hold
  split
  · exact Nat.zero_le _
  · split
    · assumption
    · show n ≤ capacity
      omega

/-- No more bytes wait than the buffer has room for. -/
theorem waiting_write_le_capacity (b : LineBuffer) (bytes : List UInt8) :
    (b.write bytes).waiting ≤ capacity := by
  unfold write
  split <;> exact waiting_hold_le_capacity _ _

/-- Only bytes that waited before and bytes of the piece can wait. -/
theorem waiting_write_le (b : LineBuffer) (bytes : List UInt8) :
    (b.write bytes).waiting ≤ b.waiting + bytes.length := by
  unfold write
  split
  · have h := waiting_hold_le b.flush (unended bytes).length
    have hu := length_unended_le bytes
    simp only [flush, Nat.zero_add] at h ⊢
    omega
  · exact waiting_hold_le b _

/-- After a flush all has left. -/
@[simp] theorem sent_flush (b : LineBuffer) (written : List UInt8) :
    b.flush.sent written = written := by
  simp [sent, flush]

/-- What has been sent stays sent when more is written. -/
theorem sent_prefix_sent_write (b : LineBuffer) (written bytes : List UInt8) :
    b.sent written <+: (b.write bytes).sent (written ++ bytes) := by
  have h := waiting_write_le b bytes
  have hm : written.length - b.waiting
      ≤ (written ++ bytes).length - (b.write bytes).waiting := by
    rw [List.length_append]
    omega
  have hw : (written ++ bytes).take (written.length - b.waiting) = b.sent written :=
    List.take_append_of_le_length (Nat.sub_le _ _)
  rw [← hw]
  exact List.take_prefix_take_left hm

end LineBuffer

end ScanTrace
