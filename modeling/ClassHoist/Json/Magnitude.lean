import ClassHoist.Text.Basic

/-! # The size of a number

A number is read as a significand of 64 bits times a power of ten. What the significand cannot
hold is dropped. Its value is the double closest to the significand times the double closest to
the power, and that product can lie beyond the doubles although the number written does not.
-/

namespace ClassHoist.Json

/-- The value of a decimal digit. -/
def digitValue (c : Char) : Nat := c.toNat - '0'.toNat

/-- The value of some decimal digits. -/
def digitsValue (found : Text) : Nat :=
  found.foldl (fun value c => 10 * value + digitValue c) 0

/-- The digits of a number that were kept, times a power of ten. -/
structure Magnitude where
  significand : Nat
  power : Int
  deriving DecidableEq, Repr

namespace Magnitude

/-- A significand with one more digit, if it has no more than 64 bits. -/
@[irreducible] def extend? (significand : Nat) (c : Char) : Option Nat :=
  Option.guard (· < UInt64.size) (10 * significand + digitValue c)

/-- The magnitude of a significand that whole digits follow. From the first digit that does not
fit on, each digit only raises the power. -/
def ofWhole (significand : Nat) : Text → Magnitude
  | [] => ⟨significand, 0⟩
  | c :: rest =>
    match extend? significand c with
    | some longer => ofWhole longer rest
    | none => ⟨significand, rest.length + 1⟩

/-- A magnitude with the digits after the point, up to the first one that does not fit. -/
def addFraction (magnitude : Magnitude) : Text → Magnitude
  | [] => magnitude
  | c :: rest =>
    match extend? magnitude.significand c with
    | some longer => addFraction ⟨longer, magnitude.power - 1⟩ rest
    | none => magnitude

/-- The magnitude of a number with the digits `whole` before its point, `part` after it, and an
exponent. -/
def ofDigits (whole part : Text) (exponent : Int) : Magnitude :=
  let read := (ofWhole 0 whole).addFraction part
  ⟨read.significand, read.power + exponent⟩

/-- A significand that takes one more digit still fits a machine word. -/
theorem lt_of_extend? {significand longer : Nat} {c : Char}
    (fits : extend? significand c = some longer) : longer < UInt64.size := by
  unfold extend? at fits
  obtain ⟨rfl, bounded⟩ := Option.guard_eq_some_iff.mp fits
  exact of_decide_eq_true bounded

/-- The significand of a whole part fits a machine word if the one it starts from does. -/
theorem significand_ofWhole_lt {significand : Nat} (small : significand < UInt64.size)
    (text : Text) : (ofWhole significand text).significand < UInt64.size := by
  induction text generalizing significand with
  | nil => simpa only [ofWhole] using small
  | cons c rest ih =>
    cases fits : extend? significand c with
    | none => simpa only [ofWhole, fits] using small
    | some longer => simpa only [ofWhole, fits] using ih (lt_of_extend? fits)

/-- Digits behind the point keep the significand within a machine word. -/
theorem significand_addFraction_lt {magnitude : Magnitude}
    (small : magnitude.significand < UInt64.size) (text : Text) :
    (magnitude.addFraction text).significand < UInt64.size := by
  induction text generalizing magnitude with
  | nil => simpa only [addFraction] using small
  | cons c rest ih =>
    cases fits : extend? magnitude.significand c with
    | none => simpa only [addFraction, fits] using small
    | some longer =>
      have kept : (⟨longer, magnitude.power - 1⟩ : Magnitude).significand < UInt64.size :=
        lt_of_extend? fits
      simpa only [addFraction, fits] using ih kept

/-- A significand has no more than 64 bits. -/
theorem significand_ofDigits_lt (whole part : Text) (exponent : Int) :
    (ofDigits whole part exponent).significand < UInt64.size :=
  significand_addFraction_lt (significand_ofWhole_lt (by decide) whole) part

end Magnitude

/-- A number with 53 significant bits that is closest to `n`. Of two such numbers it is the one
with an even last bit. -/
def closestDouble (n : Nat) : Nat :=
  let unit := Nat.pow 2 (n.log2 - 52)
  let below := n / unit
  let left := n % unit
  let raised := unit < 2 * left ∨ unit = 2 * left ∧ below % 2 = 1
  (if raised then below + 1 else below) * unit

/-- The midpoint between the largest double and the next power of two. From here on a number rounds
to no double. -/
def doubleLimit : Nat := Nat.pow 2 1024 - Nat.pow 2 970

/-- The value of a magnitude lies beyond the doubles. So does every power of ten from 309 on, while
a quotient by a power of ten never does. -/
def Magnitude.isTooLarge (magnitude : Magnitude) : Bool :=
  if magnitude.significand = 0 ∨ magnitude.power < 0 then false
  else if 308 < magnitude.power then true
  else
    let power := closestDouble (Nat.pow 10 magnitude.power.toNat)
    doubleLimit ≤ closestDouble magnitude.significand * power

end ClassHoist.Json
