/-
Blank characters: the twenty-five code points that Unicode gives the
property White_Space, and the text that is left when blanks are taken off
both ends. Names of levels and of fields are compared after this trimming,
so that "  cpp " and "cpp" are one name while "c pp" stays unknown.

The table is a list of closed ranges, in code point order, and membership
is a search in it; core's `Char.isWhitespace` knows four of them only.
-/

namespace ScanTrace.Text

-- ============================================================ the table

/-- The ranges of White_Space, each by its first and its last code point. -/
def blankRanges : List (Nat × Nat) :=
  [(0x09, 0x0D), (0x20, 0x20), (0x85, 0x85), (0xA0, 0xA0), (0x1680, 0x1680),
   (0x2000, 0x200A), (0x2028, 0x2029), (0x202F, 0x202F), (0x205F, 0x205F),
   (0x3000, 0x3000)]

/-- Whether a character has the property White_Space. -/
def isBlank (c : Char) : Bool :=
  blankRanges.any fun r => r.1 ≤ c.toNat && c.toNat ≤ r.2

-- ============================================================= trimming

/-- The text without the blanks at its two ends. -/
def trim (cs : List Char) : List Char :=
  ((cs.dropWhile isBlank).reverse.dropWhile isBlank).reverse

end ScanTrace.Text
