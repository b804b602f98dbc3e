/-
UTF-8 read one byte at a time. Bytes reach the console in pieces that are
cut anywhere, so the decoder's whole state is the list of bytes it holds
back: none, or the first bytes of a sequence whose end is still to come.

A byte that may continue the held bytes joins them, and completes a
character when the sequence has its full width. A byte that may not ends
them: what was held is one ill-formed part and is answered with `none`,
and the byte starts anew. A byte that starts nothing is an ill-formed part
by itself. These are the maximal subparts of the Unicode standard, so one
damaged sequence costs one replacement character and never eats a byte of
what follows it.

Since a run over `xs ++ ys` is a run over `xs` followed by one over `ys`
from the bytes then held (`feed_append`), where the input is cut changes
nothing; and a run over bytes that are themselves held gives nothing and
holds them again, which is what lets a reader keep bytes and not a state.
-/

namespace ScanTrace.Utf8

-- ================================================ the shape of sequences

/-- The bytes that write a text. -/
def encode (cs : List Char) : List UInt8 := cs.flatMap String.utf8EncodeChar

theorem encode_append (xs ys : List Char) : encode (xs ++ ys) = encode xs ++ encode ys :=
  List.flatMap_append

/-- The replacement character, which stands for one ill-formed part. -/
def replacement : Char := '\uFFFD'

/-- Whether a byte has the form of a second or later byte. -/
def isTail (b : UInt8) : Bool := 0x80 ≤ b && b ≤ 0xBF

/-- How many bytes the sequences with this first byte have, and zero if there
is none: continuation bytes start nothing, C0 and C1 could only start
overlong forms, and F5 and above lie beyond the last code point. -/
def width (lead : UInt8) : Nat :=
  if lead ≤ 0x7F then 1
  else if lead ≤ 0xC1 then 0
  else if lead ≤ 0xDF then 2
  else if lead ≤ 0xEF then 3
  else if lead ≤ 0xF4 then 4
  else 0

/-- Whether a byte may come second after this first byte. Four first bytes
take part of the range only: after E0 and F0 the rest would be overlong,
after ED a surrogate, after F4 beyond the last code point. -/
def isSecond (lead b : UInt8) : Bool :=
  isTail b && (lead != 0xE0 || 0xA0 ≤ b) && (lead != 0xED || b ≤ 0x9F)
    && (lead != 0xF0 || 0x90 ≤ b) && (lead != 0xF4 || b ≤ 0x8F)

/-- The code point that a complete sequence carries: the low bits of the first
byte, then six bits of each later one. -/
def scalar : List UInt8 → Nat
  | [a] => a.toNat
  | [a, b] => a.toNat % 32 * 64 + b.toNat % 64
  | [a, b, c] => (a.toNat % 16 * 64 + b.toNat % 64) * 64 + c.toNat % 64
  | [a, b, c, d] =>
    ((a.toNat % 8 * 64 + b.toNat % 64) * 64 + c.toNat % 64) * 64 + d.toNat % 64
  | _ => replacement.toNat

/-- The character that a complete sequence writes. -/
def character (bytes : List UInt8) : Char := Char.ofNat (scalar bytes)

-- ============================================================ one byte

/-- A byte with nothing held before it. -/
def start (b : UInt8) : List (Option Char) × List UInt8 :=
  match width b with
  | 0 => ([none], [])
  | 1 => ([some (character [b])], [])
  | _ => ([], [b])

/-- Whether a byte goes on with the sequence that the held bytes begin. -/
def continues : List UInt8 → UInt8 → Bool
  | [], _ => false
  | [lead], b => isSecond lead b
  | _, b => isTail b

/-- A byte after the held ones: the characters and ill-formed parts (`none`)
that it settles, and what is held after it. -/
def step (held : List UInt8) (b : UInt8) : List (Option Char) × List UInt8 :=
  match held with
  | [] => start b
  | lead :: _ =>
    if continues held b then
      if held.length + 1 = width lead then ([some (character (held ++ [b]))], [])
      else ([], held ++ [b])
    else (none :: (start b).1, (start b).2)

-- ======================================================== runs of bytes

/-- All bytes of a list after the held ones. -/
def feed (held : List UInt8) : List UInt8 → List (Option Char) × List UInt8
  | [] => ([], held)
  | b :: rest =>
    let now := step held b
    let later := feed now.2 rest
    (now.1 ++ later.1, later.2)

/-- Where the input is cut changes nothing. -/
theorem feed_append (held xs ys : List UInt8) :
    feed held (xs ++ ys)
      = ((feed held xs).1 ++ (feed (feed held xs).2 ys).1,
         (feed (feed held xs).2 ys).2) := by
  induction xs generalizing held with
  | nil => simp [feed]
  | cons b rest ih => simp [feed, ih, List.append_assoc]

/-- The text that a byte list settles, an ill-formed part read as the
replacement character, and the bytes at its end that are still to be
completed. -/
def drain (bytes : List UInt8) : List Char × List UInt8 :=
  ((feed [] bytes).1.map (·.getD replacement), (feed [] bytes).2)

/-- The text that a byte list writes if all of it is well-formed. -/
def decode? (bytes : List UInt8) : Option (List Char) :=
  match feed [] bytes with
  | (parts, []) => parts.mapM id
  | _ => none

end ScanTrace.Utf8
