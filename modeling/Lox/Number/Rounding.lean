import Lox.Number

/-!
# Reading decimals

`Number.ofRatio` is the double nearest to a fraction, with a midpoint going to the even significand,
and infinity beyond the largest double. `Number.ofDigits` reads a decimal numeral by it.
-/

namespace Lox

/-- The whole number nearest to `a / b`; a half goes to the even neighbour. -/
def roundDiv (a b : Nat) : Nat :=
  let quotient := a / b
  let past := 2 * (a % b)
  if past < b then quotient
  else if b < past then quotient + 1
  else quotient + quotient % 2

namespace Number

/-- The shift that gives the significand of `num / den` units its full width, if it has that many
bits. -/
def ratioShift (num den : Nat) : Nat := (num / den).log2 - 52

/-- The double nearest to `num / den`. The carry of a significand rounded up to `2 ^ 53` goes into
the shift by plain addition of bits. -/
def ofRatio (num den : Nat) : Number :=
  let scaled := num * unitsPerOne
  let shift := ratioShift scaled den
  ⟨UInt64.ofNat (min (shift * shiftWeight + roundDiv scaled (den <<< shift)) infiniteMagnitude)⟩

/-- The number written by the digits `whole` before the decimal point and `fraction` after it. -/
def ofDigits (whole fraction : List Char) : Number :=
  ofRatio (Nat.ofDigitChars 10 (whole ++ fraction) 0) (Nat.pow 10 fraction.length)

/-- The double nearest to an integer. -/
def ofInt (i : Int) : Number :=
  let size := ofRatio i.natAbs 1
  if i < 0 then ⟨size.bits + UInt64.ofNat signWeight⟩ else size

end Number

end Lox
