/-!
# Hexadecimal numbers

Numbers written with the digits `0` to `9` and `a` to `f`, in upper or lower case.
-/

namespace Stencil.Text

/-- The value of a digit. -/
def hexDigit? (c : Char) : Option Nat :=
  if '0' ≤ c && c ≤ '9' then some (c.toNat - '0'.toNat)
  else if 'a' ≤ c && c ≤ 'f' then some (c.toNat - 'a'.toNat + 10)
  else if 'A' ≤ c && c ≤ 'F' then some (c.toNat - 'A'.toNat + 10)
  else none

/-- The value of a list of digits. -/
def hexValue? (digits : List Char) : Option Nat :=
  (digits.mapM hexDigit?).map (·.foldl (16 * · + ·) 0)

/-- The character of a code point. -/
def charOfCode? (code : Nat) : Option Char :=
  if code.isValidChar then some (Char.ofNat code) else none

end Stencil.Text
