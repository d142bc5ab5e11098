/-!
# Digits of numbers

Decimal digits are the ten of ASCII, hexadecimal digits add the letters `a` to
`f` in either case.
-/

namespace LuaShape.Text

/-- Hexadecimal digits. -/
def isHexDigit (c : Char) : Bool :=
  c.isDigit || ('a' ≤ c && c ≤ 'f') || ('A' ≤ c && c ≤ 'F')

/-- The value of a hexadecimal digit. -/
def hexValue? (c : Char) : Option Nat :=
  if c.isDigit then some (c.toNat - '0'.toNat)
  else if 'a' ≤ c && c ≤ 'f' then some (c.toNat - 'a'.toNat + 10)
  else if 'A' ≤ c && c ≤ 'F' then some (c.toNat - 'A'.toNat + 10)
  else none

/-- The number written by hexadecimal digits; nothing when one of the characters
is no digit. -/
def hexNumber? (digits : List Char) : Option Nat :=
  digits.foldlM (fun code c => (hexValue? c).map (code * 16 + ·)) 0

/-- The number written by decimal digits. -/
def decimalNumber (digits : List Char) : Nat :=
  digits.foldl (fun code c => code * 10 + (c.toNat - '0'.toNat)) 0

end LuaShape.Text
