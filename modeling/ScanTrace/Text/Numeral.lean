/-
Numbers as the trace writes them: nesting depths and exit codes in decimal,
masks of debug levels in hexadecimal behind "0x". No number is padded, zero
is one digit, and a negative number has a minus sign before the digits of
its amount.
-/

namespace ScanTrace.Text

def decimal (n : Nat) : List Char := Nat.toDigits 10 n

theorem isDigit_of_mem_decimal {n : Nat} {c : Char} (h : c ∈ decimal n) : c.isDigit = true :=
  Nat.isDigit_of_mem_toDigits (by omega) (by omega) h

/-- A number is read back from its digits. -/
theorem decimal_inj {m n : Nat} : decimal m = decimal n ↔ m = n := by
  constructor
  · intro h
    calc
      m = Nat.ofDigitChars 10 (decimal m) 0 := Nat.ofDigitChars_ten_toDigits.symm
      _ = Nat.ofDigitChars 10 (decimal n) 0 := by rw [h]
      _ = n := Nat.ofDigitChars_ten_toDigits
  · exact congrArg decimal

/-- The decimal digits of a whole number, after a minus sign if it is below zero. -/
def signed : Int → List Char
  | .ofNat n => decimal n
  | .negSucc n => '-' :: decimal (n + 1)

/-- The hexadecimal digits of a natural number, letters small, behind "0x". -/
def hexadecimal (n : Nat) : List Char := '0' :: 'x' :: Nat.toDigits 16 n

end ScanTrace.Text
