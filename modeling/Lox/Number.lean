/-!
# Numbers

A number is an IEEE 754 double held by its 64 bits, so two numbers are the same value of this type
exactly when their bits agree: `0` and `-0` are told apart, and so are two payloads of a NaN.
Equality and order in the sense of the standard are the separate operations `numEq`, `lt` and `le`.

A finite double is a whole number of units, where the unit is the least positive double `2 ^
(-1074)`. Below the sign bit, the bits of a double with significand `m` and shift `k` are `k * 2 ^
52 + m`, for subnormal and normal doubles alike, and its size is `m * 2 ^ k` units. All decimal work
is done on these natural numbers.
-/

namespace Lox

/-- A double, by its bits. -/
structure Number where
  bits : UInt64
  deriving DecidableEq, Inhabited

namespace Number

/-! ### Fields of the bit pattern -/

/-- The weight of the sign bit, `2 ^ 63`. -/
def signWeight : Nat := 0x8000000000000000

/-- The weight of the shift among the bits, `2 ^ 52`. -/
def shiftWeight : Nat := 0x10000000000000

/-- The bits below the sign bit. -/
def magnitude (n : Number) : Nat := n.bits.toNat % signWeight

def isNegative (n : Number) : Bool := decide (signWeight ≤ n.bits.toNat)

/-- The magnitude of the two infinities. Finite doubles lie below it and NaNs above. -/
def infiniteMagnitude : Nat := 2047 * shiftWeight

def isNaN (n : Number) : Bool := decide (infiniteMagnitude < n.magnitude)

def isInfinite (n : Number) : Bool := decide (n.magnitude = infiniteMagnitude)

def isFinite (n : Number) : Bool := decide (n.magnitude < infiniteMagnitude)

/-- How many places the significand is shifted to the left; subnormal doubles are not shifted. -/
def shift (n : Number) : Nat := n.magnitude / shiftWeight - 1

/-- The significand, with its leading one if there is one. -/
def significand (n : Number) : Nat := n.magnitude - n.shift * shiftWeight

/-- The size of a finite number, counted in the least positive double. -/
def units (n : Number) : Nat := n.significand <<< n.shift

/-- How many units make one, `2 ^ 1074`. -/
def unitsPerOne : Nat := 1 <<< 1074

/-- A finite number without a fractional part. -/
def isIntegral (n : Number) : Bool := n.isFinite && decide (n.units % unitsPerOne = 0)

/-- The integer part of the size of a finite number. -/
def wholePart (n : Number) : Nat := n.units / unitsPerOne

/-! ### Arithmetic -/

def toFloat (n : Number) : Float := Float.ofBits n.bits

def ofFloat (x : Float) : Number := ⟨x.toBits⟩

def add (a b : Number) : Number := ofFloat (a.toFloat + b.toFloat)

def sub (a b : Number) : Number := ofFloat (a.toFloat - b.toFloat)

def mul (a b : Number) : Number := ofFloat (a.toFloat * b.toFloat)

def div (a b : Number) : Number := ofFloat (a.toFloat / b.toFloat)

def neg (a : Number) : Number := ofFloat (-a.toFloat)

/-- Equality of numbers: `0` equals `-0`, and a NaN equals nothing. -/
def numEq (a b : Number) : Bool := a.toFloat == b.toFloat

def lt (a b : Number) : Bool := decide (a.toFloat < b.toFloat)

def le (a b : Number) : Bool := decide (a.toFloat ≤ b.toFloat)

end Number

end Lox
