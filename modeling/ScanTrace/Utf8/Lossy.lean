/-
UTF-8 read as a whole. `lossy` takes a byte list that is all there and reads
it from the front: the first byte says how long its sequence should be, the
bytes behind it that belong to it are counted off, and the two together are
one character if nothing is missing and one replacement character if
something is. It holds nothing back and knows nothing of `feed`, so it says
what a text must be, however the bytes arrive.
-/
import ScanTrace.Utf8.Decoder

namespace ScanTrace.Utf8

/-- The bytes behind a first byte that belong to its sequence: no more than
its width asks for, the second one in the range that the first allows. -/
def tails (lead : UInt8) : List UInt8 → List UInt8
  | [] => []
  | b :: rest =>
    if 2 ≤ width lead && isSecond lead b then
      b :: (rest.take (width lead - 2)).takeWhile isTail
    else []

/-- The text of a byte list, each ill-formed part of it read as one replacement
character. -/
def lossy : List UInt8 → List Char
  | [] => []
  | lead :: rest =>
    let own := tails lead rest
    let c := if own.length + 1 = width lead then character (lead :: own) else replacement
    c :: lossy (rest.drop own.length)
termination_by bytes => bytes.length
decreasing_by simp only [List.length_drop, List.length_cons]; omega

theorem lossy_nil : lossy [] = [] := by simp [lossy]

end ScanTrace.Utf8
