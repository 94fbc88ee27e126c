import Lox.Number

/-!
# Shortest decimals

`Number.shortest` finds, for a finite double, the decimal with the fewest digits that reads back as
that double, and of those the nearest one.

The reals that round to a double form an interval whose ends are midpoints to its two neighbours.
All of these ends are whole multiples of `10 ^ (-1076)`, so the search runs on natural numbers: it
takes the powers of ten from the coarsest down and stops at the first whose multiples meet the
interval. On the finest grid, of step `1`, the double itself is a multiple, so the search always
succeeds.
-/

namespace Lox

/-- The decimal `digits * 10 ^ exponent`. -/
structure Decimal where
  digits : Nat
  exponent : Int
  deriving DecidableEq

/-- Which of two equally near decimals is taken. -/
inductive Tie where
  | up
  | even
  deriving DecidableEq

/-- An interval of natural numbers, with both ends or without both. -/
structure Interval where
  lo : Nat
  hi : Nat
  closed : Bool

namespace Interval

def contains (i : Interval) (x : Nat) : Bool :=
  if i.closed then decide (i.lo ≤ x) && decide (x ≤ i.hi)
  else decide (i.lo < x) && decide (x < i.hi)

/-- The multiple of `step` next to `point` that lies in the interval, as the factor of `step`; the
nearer one if both neighbours do. -/
def gridPoint? (i : Interval) (tie : Tie) (point step : Nat) : Option Nat :=
  let below := point / step
  match i.contains (below * step), i.contains ((below + 1) * step) with
  | true, true =>
    let past := 2 * (point % step)
    if past < step then some below
    else if step < past then some (below + 1)
    else match tie with
      | .up => some (below + 1)
      | .even => some (below + below % 2)
  | true, false => some below
  | false, true => some (below + 1)
  | false, false => none

/-- The point of the coarsest power-of-ten grid up to `10 ^ j` that meets the interval, with the
exponent of its grid. -/
def coarsest (i : Interval) (tie : Tie) (point : Nat) : Nat → Nat × Nat
  | 0 => (point, 0)
  | j + 1 =>
    match i.gridPoint? tie point (Nat.pow 10 (j + 1)) with
    | some digits => (digits, j + 1)
    | none => i.coarsest tie point j

end Interval

namespace Number

/-- The places after the decimal point on which every boundary between doubles can be written. -/
def decimalPlaces : Nat := 1076

/-- A quarter of the least positive double, in steps of `10 ^ (-1076)`. -/
def quarterUnit : Nat := Nat.pow 5 decimalPlaces

/-- The size of a finite number in steps of `10 ^ (-1076)`. -/
def point (n : Number) : Nat := 4 * n.units * quarterUnit

/-- Half the distance to the next double away from zero. -/
def gapAbove (n : Number) : Nat := (2 <<< n.shift) * quarterUnit

/-- Half the distance to the next double towards zero, which is closer where the significand has
just gained a place. -/
def gapBelow (n : Number) : Nat :=
  if n.significand = shiftWeight ∧ 0 < n.shift then (1 <<< n.shift) * quarterUnit else n.gapAbove

/-- The sizes that round to a finite number. A midpoint goes to the even significand. -/
def roundingInterval (n : Number) : Interval where
  lo := n.point - n.gapBelow
  hi := n.point + n.gapAbove
  closed := decide (n.significand % 2 = 0)

/-- A number of decimal digits that `p` does not exceed. -/
def digitBound (p : Nat) : Nat := (p.log2 + 1) * 30103 / 100000 + 1

/-- The decimal with the fewest digits that reads back as the size of a finite number. -/
def shortest (tie : Tie) (n : Number) : Decimal :=
  if n.units = 0 then ⟨0, 0⟩
  else
    let found := n.roundingInterval.coarsest tie n.point (digitBound n.point)
    ⟨found.1, (found.2 : Int) - decimalPlaces⟩

end Number

end Lox
