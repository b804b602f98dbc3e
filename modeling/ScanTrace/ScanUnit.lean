/-
What a scanner hands over one piece at a time, and how it is told apart. A
scanner speaks in plain numbers: characters by their code points, bytes of
its input by their values, and three markers. A negative number is the end
of input. Two numbers in the range of bytes stand for a whole string or
character literal and win over the bytes they share, 0xD3 and 0xC3; the
other numbers from 0x80 to 0xFF are bytes, most often parts of UTF-8
sequences, and are passed on as they are.
-/
import ScanTrace.Utf8.Decoder

namespace ScanTrace

/-- One piece of scanner input. -/
inductive ScanUnit where
  | endOfInput
  /-- A string literal, whatever it says. -/
  | stringLiteral
  /-- A character literal, whatever it says. -/
  | charLiteral
  | char (c : Char)
  /-- A byte outside ASCII, not decoded. -/
  | byte (b : UInt8)
  deriving DecidableEq

namespace ScanUnit

/-- The number that scanners use for the end of input. -/
def endMark : Int32 := -1

/-- The number for a string literal, an S with the high bit. -/
def stringMark : Int32 := 0xD3

/-- The number for a character literal, a C with the high bit. -/
def charMark : Int32 := 0xC3

/-- The piece that a number of a scanner means. A number that is no code point
means the replacement character. -/
def ofRaw (raw : Int32) : ScanUnit :=
  if raw = stringMark then .stringLiteral
  else if raw = charMark then .charLiteral
  else
    match raw.toInt with
    | .negSucc _ => .endOfInput
    | .ofNat n =>
      if 0x80 ≤ n && n ≤ 0xFF then .byte (UInt8.ofNat n)
      else if n.isValidChar then .char (Char.ofNat n)
      else .char Utf8.replacement

end ScanUnit

end ScanTrace
