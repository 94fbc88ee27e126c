import Lox.Number.Shortest

/-!
# Numbers as text

Three written forms of a number:

* `Number.display`, what a program prints: positional between `10 ^ (-4)` and `2 ^ 53`, in exponent
  form elsewhere;
* `Number.literal`, how tokens and trees show a number: always positional, an integral value with
  one fractional digit;
* `Number.json`, a number of a JSON document.
-/

namespace Lox

namespace Decimal

def digitChars (d : Decimal) : List Char := Nat.toDigits 10 d.digits

/-- The exponent of the leading digit. -/
def leadingExponent (d : Decimal) : Int := d.exponent + (d.digitChars.length - 1 : Nat)

/-- All digits in place, with zeros up to the decimal point. -/
def positional (d : Decimal) : List Char :=
  match d.exponent with
  | .ofNat zeros => d.digitChars ++ List.replicate zeros '0'
  | .negSucc k =>
    let places := k + 1
    let padded := List.replicate (places + 1 - d.digitChars.length) '0' ++ d.digitChars
    let whole := padded.length - places
    padded.take whole ++ '.' :: padded.drop whole

/-- A decimal exponent with its sign, padded to `width` digits. -/
def exponentChars (width : Nat) (e : Int) : List Char :=
  let digits := Nat.toDigits 10 e.natAbs
  (if e < 0 then '-' else '+') :: (List.replicate (width - digits.length) '0' ++ digits)

/-- One digit before the decimal point and the power of ten after an `e`. -/
def scientific (width : Nat) (d : Decimal) : List Char :=
  let mantissa := match d.digitChars with
    | first :: second :: rest => first :: '.' :: second :: rest
    | digits => digits
  mantissa ++ 'e' :: exponentChars width d.leadingExponent

end Decimal

namespace Number

def signChars (n : Number) : List Char := if n.isNegative then ['-'] else []

/-- Numbers that print in exponent form: those of size at least `2 ^ 53`, and those below `10 ^
(-4)` other than zero. -/
def usesExponent (n : Number) : Bool :=
  decide (2 * shiftWeight * unitsPerOne ≤ n.units) ||
    (decide (n.units ≠ 0) && decide (n.units * 10000 < unitsPerOne))

/-- A number as `print` shows it. A negative zero keeps its sign. -/
def displayChars (n : Number) : List Char :=
  if n.isNaN then ['n', 'a', 'n']
  else if n.isInfinite then n.signChars ++ ['i', 'n', 'f']
  else if n.usesExponent then n.signChars ++ (n.shortest .up).scientific 2
  else n.signChars ++ (n.shortest .up).positional

def display (n : Number) : String := String.ofList n.displayChars

/-- A number as tokens and trees show it: an integral value below `2 ^ 63` exactly and with the
fraction `.0`, any other by its shortest decimal. An integral zero shows no sign. -/
def literalChars (n : Number) : List Char :=
  if n.isNaN then ['N', 'a', 'N']
  else if n.isInfinite then n.signChars ++ ['i', 'n', 'f']
  else if n.isIntegral && decide (n.wholePart < signWeight) then
    (if n.wholePart = 0 then [] else n.signChars) ++ Nat.toDigits 10 n.wholePart ++ ['.', '0']
  else n.signChars ++ (n.shortest .up).positional

def literal (n : Number) : String := String.ofList n.literalChars

/-- A number of a JSON document: positional from `10 ^ (-5)` up to `10 ^ 16`, with a fractional
digit always, and `null` where JSON has no number. -/
def json (n : Number) : String :=
  if !n.isFinite then "null"
  else
    let decimal := n.shortest .even
    let positional := decimal.positional
    let chars :=
      if decide (-5 ≤ decimal.leadingExponent) && decide (decimal.leadingExponent < 16) then
        if positional.contains '.' then positional else positional ++ ['.', '0']
      else decimal.scientific 1
    String.ofList (n.signChars ++ chars)

end Number

end Lox
