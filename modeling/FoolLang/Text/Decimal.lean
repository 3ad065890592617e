/-!
# Decimal — integers written in base ten

No leading zero, no sign before a positive number, `-` before a negative one.
-/
namespace FoolLang
namespace Text

/-- The digits of a natural number. -/
def decimal (n : Nat) : List Char := Nat.toDigits 10 n

/-- An integer, with its sign if it is negative. -/
def signedDecimal : Int → List Char
  | .ofNat n => decimal n
  | .negSucc n => '-' :: decimal (n + 1)

/-- The value of a run of digits. -/
def ofDecimal (ds : List Char) : Nat := Nat.ofDigitChars 10 ds 0

/-- The largest 32-bit integer. -/
def maxInt32 : Nat := 2147483647

end Text
end FoolLang
