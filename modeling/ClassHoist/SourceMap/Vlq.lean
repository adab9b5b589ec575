/-! # Variable-length numbers in base 64

A signed number is written as a sequence of base-64 digits, five bits to a digit and the lowest
bits first. The lowest bit of all is the sign; the sixth bit of a digit says that more follow.
-/

namespace ClassHoist.SourceMap.Vlq

/-- The character of a base-64 digit. -/
def digit (n : Nat) : Char :=
  if n < 26 then Char.ofNat (65 + n)
  else if n < 52 then Char.ofNat (97 + (n - 26))
  else if n < 62 then Char.ofNat (48 + (n - 52))
  else if n = 62 then '+'
  else '/'

/-- The digits of a natural number, lowest first. -/
def digits (n : Nat) : List Char :=
  if n < 32 then [digit n] else digit (n % 32 + 32) :: digits (n / 32)

/-- The natural number that stands for a signed one: twice its size, plus one if it is negative. -/
def ofInt (value : Int) : Nat :=
  if value < 0 then 2 * value.natAbs + 1 else 2 * value.natAbs

/-- A signed number in base 64. -/
def encode (value : Int) : List Char :=
  digits (ofInt value)

end ClassHoist.SourceMap.Vlq
