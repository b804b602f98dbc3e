/-
The tokens of JSON texts, how each is written, and how a text is cut into
tokens, one character at a time.

# Reading

`Mode` says what the characters read last have begun: nothing, a string
literal, one of its escapes, a number, a word. A character moves to the
next mode and may complete tokens. Numbers are the one kind of token that
ends by the character behind it, so that character completes the number
and begins anew. Two scalars may stand side by side here without a blank,
as in `1"a"`; the grammar of values (Reader.lean) has no place for them.

Escapes of the form `\uXXXX` give a code unit of UTF-16. Units are kept as
they are until the literal ends; then a high surrogate and a low one behind
it are one character, and a literal in which a surrogate stays alone has no
text.

# Writing

`Token.text` writes strings with the short escapes where JSON has one, the
other control characters as `\u00xx`, and everything else as itself.
-/

namespace ScanTrace.Json

-- =============================================================== tokens

inductive Token where
  | braceOpen
  | braceClose
  | bracketOpen
  | bracketClose
  | colon
  | comma
  | null
  | bool (b : Bool)
  | number (written : List Char)
  | string (text : Option String)
  deriving DecidableEq

-- =============================================================== writing

/-- How a character is written inside a string literal. -/
def escape (c : Char) : List Char :=
  if c = '"' then ['\\', '"']
  else if c = '\\' then ['\\', '\\']
  else if c = '\n' then ['\\', 'n']
  else if c = '\r' then ['\\', 'r']
  else if c = '\t' then ['\\', 't']
  else if c.toNat = 0x08 then ['\\', 'b']
  else if c.toNat = 0x0C then ['\\', 'f']
  else if c.toNat < 0x20 then
    ['\\', 'u', '0', '0', Nat.digitChar (c.toNat / 16), Nat.digitChar (c.toNat % 16)]
  else [c]

/-- How a token is written. A string without text is written as an unpaired
surrogate, which reads back as a string without text. -/
def Token.text : Token → List Char
  | .braceOpen => ['{']
  | .braceClose => ['}']
  | .bracketOpen => ['[']
  | .bracketClose => [']']
  | .colon => [':']
  | .comma => [',']
  | .null => ['n', 'u', 'l', 'l']
  | .bool true => ['t', 'r', 'u', 'e']
  | .bool false => ['f', 'a', 'l', 's', 'e']
  | .number written => written
  | .string (some s) => '"' :: s.toList.flatMap escape ++ ['"']
  | .string none => ['"', '\\', 'u', 'd', '8', '0', '0', '"']

-- ======================================================= string literals

/-- A part of a string literal: a character, or a code unit of UTF-16 that was
written as an escape. -/
inductive Piece where
  | char (c : Char)
  | unit (u : Nat)
  deriving DecidableEq

/-- Whether a code unit opens a surrogate pair. -/
def isHigh (u : Nat) : Bool := 0xD800 ≤ u && u ≤ 0xDBFF

/-- Whether a code unit closes a surrogate pair. -/
def isLow (u : Nat) : Bool := 0xDC00 ≤ u && u ≤ 0xDFFF

def pairChar (high low : Nat) : Char :=
  Char.ofNat (0x10000 + (high - 0xD800) * 0x400 + (low - 0xDC00))

/-- The text that the pieces of a literal say, if no surrogate stays alone. -/
def pieces? : List Piece → Option (List Char)
  | [] => some []
  | .char c :: rest => (c :: ·) <$> pieces? rest
  | [.unit u] => if isHigh u || isLow u then none else some [Char.ofNat u]
  | .unit u :: .char c :: rest =>
    if isHigh u || isLow u then none else (Char.ofNat u :: c :: ·) <$> pieces? rest
  | .unit u :: .unit v :: rest =>
    if isHigh u then
      if isLow v then (pairChar u v :: ·) <$> pieces? rest else none
    else if isLow u then none
    else (Char.ofNat u :: ·) <$> pieces? (.unit v :: rest)

/-- The character that a one-letter escape stands for. -/
def unescape? : Char → Option Char
  | '"' => some '"'
  | '\\' => some '\\'
  | '/' => some '/'
  | 'b' => some '\x08'
  | 'f' => some '\x0C'
  | 'n' => some '\n'
  | 'r' => some '\r'
  | 't' => some '\t'
  | _ => none

def hexDigit? (c : Char) : Option Nat :=
  if '0' ≤ c && c ≤ '9' then some (c.toNat - 48)
  else if 'a' ≤ c && c ≤ 'f' then some (c.toNat - 87)
  else if 'A' ≤ c && c ≤ 'F' then some (c.toNat - 55)
  else none

-- =============================================================== numbers

/-- How far a number has come: after its sign, its zero, a later digit of its
whole part, its point, a digit behind the point, its exponent letter, the
sign of the exponent, a digit of the exponent. -/
inductive Phase where
  | minus
  | zero
  | whole
  | point
  | fraction
  | exponent
  | exponentSign
  | power
  deriving DecidableEq

def isDigit (c : Char) : Bool := '0' ≤ c && c ≤ '9'

/-- How far a number has come one character later, if the character goes on
with it. A whole part does not open with a zero unless it is zero. -/
def Phase.next? (p : Phase) (c : Char) : Option Phase :=
  let digit (q : Phase) : Option Phase := if isDigit c then some q else none
  let exp (q : Option Phase) : Option Phase :=
    if c = 'e' || c = 'E' then some .exponent else q
  match p with
  | .minus => if c = '0' then some .zero else digit .whole
  | .zero => if c = '.' then some .point else exp none
  | .whole => if c = '.' then some .point else exp (digit .whole)
  | .point => digit .fraction
  | .fraction => exp (digit .fraction)
  | .exponent => if c = '+' || c = '-' then some .exponentSign else digit .power
  | .exponentSign => digit .power
  | .power => digit .power

/-- Whether a number may end here. -/
def Phase.final : Phase → Bool
  | .zero | .whole | .fraction | .power => true
  | _ => false

-- =============================================================== reading

/-- What the characters read last have begun; parts of strings and of numbers
are kept last first. -/
inductive Mode where
  | between
  | string (pieces : List Piece)
  | escaped (pieces : List Piece)
  /-- Inside an escape of four hexadecimal digits: how many are left, and the
  value so far. -/
  | code (pieces : List Piece) (left : Nat) (value : Nat)
  | number (phase : Phase) (written : List Char)
  /-- Inside a word: the letters left, and the token they complete. -/
  | word (left : List Char) (token : Token)

/-- A character where a token may begin. -/
def openToken (c : Char) : Option (List Token × Mode) :=
  match c with
  | ' ' | '\n' | '\t' | '\r' => some ([], .between)
  | '{' => some ([.braceOpen], .between)
  | '}' => some ([.braceClose], .between)
  | '[' => some ([.bracketOpen], .between)
  | ']' => some ([.bracketClose], .between)
  | ':' => some ([.colon], .between)
  | ',' => some ([.comma], .between)
  | '"' => some ([], .string [])
  | 'n' => some ([], .word ['u', 'l', 'l'] .null)
  | 't' => some ([], .word ['r', 'u', 'e'] (.bool true))
  | 'f' => some ([], .word ['a', 'l', 's', 'e'] (.bool false))
  | '-' => some ([], .number .minus ['-'])
  | '0' => some ([], .number .zero ['0'])
  | _ => if isDigit c then some ([], .number .whole [c]) else none

/-- The token of a string literal that ends after these pieces. -/
def closeString (pieces : List Piece) : Token :=
  .string ((pieces? pieces.reverse).map String.ofList)

/-- A character in any mode: the tokens that it completes and the mode after it. -/
def Mode.step (m : Mode) (c : Char) : Option (List Token × Mode) :=
  match m with
  | .between => openToken c
  | .string pieces =>
    if c = '"' then some ([closeString pieces], .between)
    else if c = '\\' then some ([], .escaped pieces)
    else if c.toNat < 0x20 then none
    else some ([], .string (.char c :: pieces))
  | .escaped pieces =>
    if c = 'u' then some ([], .code pieces 4 0)
    else (unescape? c).map fun x => ([], .string (.char x :: pieces))
  | .code pieces left value =>
    (hexDigit? c).map fun d =>
      let now := value * 16 + d
      if left ≤ 1 then ([], .string (.unit now :: pieces))
      else ([], .code pieces (left - 1) now)
  | .number phase written =>
    match phase.next? c with
    | some later => some ([], .number later (c :: written))
    | none =>
      if phase.final then
        (openToken c).map fun (ts, after) => (.number written.reverse :: ts, after)
      else none
  | .word (x :: left) token =>
    if c = x then
      if left.isEmpty then some ([token], .between) else some ([], .word left token)
    else none
  | .word [] _ => none

/-- The tokens that the end of the text completes. -/
def Mode.finish : Mode → Option (List Token)
  | .between => some []
  | .number phase written => if phase.final then some [.number written.reverse] else none
  | _ => none

def lexFrom (m : Mode) : List Char → Option (List Token)
  | [] => m.finish
  | c :: rest =>
    match m.step c with
    | none => none
    | some (ts, after) => (ts ++ ·) <$> lexFrom after rest

def lex (text : List Char) : Option (List Token) := lexFrom .between text

end ScanTrace.Json
