/-
Debug levels: the six categories of trace output. They are independent of
one another, each has one bit of the debug mask, and each has one name.
A name is compared without the blanks around it and without regard to the
case of ASCII letters; no other letter is folded, so the long s of
"ſtatus" is not an s.
-/
import ScanTrace.Setting
import ScanTrace.Text.Blank

namespace ScanTrace

/-- A category of trace output. -/
inductive Level where
  /-- Input echoed as it is read. -/
  | read
  /-- Nesting of the parser, and the tags it finds. -/
  | parse
  /-- Progress from file to file. -/
  | status
  | option
  /-- Conditionals of the preprocessor. -/
  | cpp
  /-- Characters as they come in, before any scanner has changed them. -/
  | raw
  deriving DecidableEq

namespace Level

/-- All levels, in the order of their bits. -/
def all : List Level := [.read, .parse, .status, .option, .cpp, .raw]

theorem mem_all (l : Level) : l ∈ all := by cases l <;> decide

def bit : Level → UInt32
  | .read => 0x01
  | .parse => 0x02
  | .status => 0x04
  | .option => 0x08
  | .cpp => 0x10
  | .raw => 0x20

def name : Level → String
  | .read => "read"
  | .parse => "parse"
  | .status => "status"
  | .option => "option"
  | .cpp => "cpp"
  | .raw => "raw"

/-- The level that a name means, if it means one. -/
def named? (given : String) : Option Level :=
  let bare := (Text.trim given.toList).map Char.toLower
  all.find? fun l => l.name.toList == bare

/-- The level that a name means, or the refusal of the name as it was given. -/
def ofName (given : String) : Except Rejection Level :=
  match named? given with
  | some l => .ok l
  | none => .error (.unknownLevel given)

end Level

end ScanTrace
