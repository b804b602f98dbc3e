/-
Settings and why they are refused. Every setting of the trace is made by a
name, a letter, a mask or a set of registered functions; each way in which
one can be wrong is a constructor of `Rejection`, and `Rejection.message`
is the only place where it gets words.

A refused setting is reported, never ignored, and the message quotes what
was given as it was given, untrimmed and unescaped.
-/
import ScanTrace.Text.Numeral

namespace ScanTrace

-- ======================================================== host functions

/-- The functions that a host can register to receive output. -/
inductive Callback where
  | write
  | writeBytes
  | putChar
  | flush
  | exit
  | tempDir
  deriving DecidableEq

def Callback.name : Callback → String
  | .write => "write"
  | .writeBytes => "write_bytes"
  | .putChar => "put_char"
  | .flush => "flush"
  | .exit => "exit"
  | .tempDir => "temp_dir"

-- ====================================================== refused settings

/-- Why a setting was refused. -/
inductive Rejection where
  /-- The name, as given, names no debug level. -/
  | unknownLevel (name : String)
  /-- These bits of a mask belong to no debug level. -/
  | undefinedBits (bits : UInt32)
  /-- The name, as given, names no extension field. -/
  | unknownField (name : String)
  /-- The letter stands for no extension field. -/
  | unknownLetter (letter : Char)
  | unregistered (callback : Callback)
  deriving DecidableEq

/-- What a user is told about a refused setting. -/
def Rejection.message : Rejection → String
  | .unknownLevel name => "unknown debug level: " ++ name
  | .undefinedBits bits =>
    "undefined debug level bits: " ++ String.ofList (Text.hexadecimal bits.toNat)
  | .unknownField name => "unknown extension field: " ++ name
  | .unknownLetter letter =>
    "unknown extension field letter: '" ++ letter.toString ++ "'"
  | .unregistered callback => "host function not registered: " ++ callback.name

end ScanTrace
