/-
  File:      Osclan/Text/Numeral.lean
  Subject:   Decimal numerals of 64-bit words.
-/
namespace Osclan.Text

/-- The number of values of a 64-bit word. -/
def wordLimit : Nat := 18446744073709551616

/-- The word a decimal numeral denotes: digits with a plus sign allowed in front, of a value below
    `wordLimit`. Leading zeros are allowed, a lone sign is not a numeral. -/
def readWord? (text : String) : Option UInt64 :=
  let digits := match text.toList with
    | '+' :: digits => digits
    | digits => digits
  if digits = [] || !digits.all Char.isDigit then
    none
  else
    let n := Nat.ofDigitChars 10 digits 0
    if n < wordLimit then some (UInt64.ofNat n) else none

end Osclan.Text
