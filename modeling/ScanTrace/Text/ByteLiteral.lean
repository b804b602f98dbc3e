/-
Byte strings written as literals, the way scripting hosts show them: a b, a
quote, the bytes, a quote. Printable ASCII stands for itself, tab, newline
and carriage return have escapes of one letter, and every other byte is
\x and two hexadecimal digits. The quote is a single one unless the bytes
hold single quotes and no double ones; the quote in use and the backslash
are escaped.
-/

namespace ScanTrace.Text

/-- The quote that a literal of these bytes is put in. -/
def quoteFor (bytes : List UInt8) : Char :=
  if bytes.contains 0x27 && !bytes.contains 0x22 then '"' else '\''

/-- How a byte is written between such quotes. -/
def literalByte (quote : Char) (b : UInt8) : List Char :=
  let c := Char.ofNat b.toNat
  if c = quote || c = '\\' then ['\\', c]
  else if c = '\t' then ['\\', 't']
  else if c = '\n' then ['\\', 'n']
  else if c = '\r' then ['\\', 'r']
  else if 0x20 ≤ b && b < 0x7F then [c]
  else ['\\', 'x', Nat.digitChar (b.toNat / 16), Nat.digitChar (b.toNat % 16)]

def byteLiteral (bytes : List UInt8) : List Char :=
  'b' :: quoteFor bytes :: bytes.flatMap (literalByte (quoteFor bytes)) ++ [quoteFor bytes]

end ScanTrace.Text
