/-
File name extensions, read off a path of bytes. Paths are byte strings with
slashes between their parts. Parts at the end that are empty or a single
dot do not count, so that "a.h/" and "a.h/." end in "a.h"; the last part
that counts is the file name, unless it leads upwards. The extension is
what follows the last dot of the name, if that dot is not its first byte:
"a." has the empty extension and ".h" has none.

A path has a given extension if the two agree byte for byte; an extension
that is not UTF-8 therefore agrees with no text.
-/
import ScanTrace.Utf8.Decoder

namespace ScanTrace.Path

def slash : UInt8 := 0x2F

def dot : UInt8 := 0x2E

/-- The parts of a path: what stands before, between and after its slashes. -/
def parts (path : List UInt8) : List (List UInt8) := path.splitOnP (· == slash)

/-- Whether a part at the end of a path does not count. -/
def isIdle (part : List UInt8) : Bool := part == [] || part == [dot]

/-- The file name of a path, if its last part that counts is a name. -/
def fileName? (path : List UInt8) : Option (List UInt8) :=
  match (parts path).reverse.dropWhile isIdle with
  | [] => none
  | last :: _ => if last == [dot, dot] then none else some last

/-- What follows the last dot of a name, if the dot is not the first byte. -/
def suffix? (name : List UInt8) : Option (List UInt8) :=
  let after := (name.reverse.takeWhile (· != dot)).reverse
  if after.length + 1 < name.length then some after else none

def extension? (path : List UInt8) : Option (List UInt8) := fileName? path >>= suffix?

def hasExtension (listed : List String) (path : List UInt8) : Bool :=
  match extension? path with
  | none => false
  | some ext => listed.any fun e => Utf8.encode e.toList == ext

end ScanTrace.Path
