/-! # Numbers in texts

A numeral is a run of ASCII digits with the usual value, leading zeros allowed. Signed numerals
may have a plus or a minus sign in front.
-/

namespace Sumscript

namespace Numeral

/-- The value of a digit. -/
def digitValue (c : Char) : Nat :=
  c.toNat - '0'.toNat

/-- The value of digits after a value that stands in front of them. -/
def valueFrom (before : Nat) (digits : List Char) : Nat :=
  digits.foldl (fun value c => 10 * value + digitValue c) before

/-- The value of a numeral; there is none without digits or with anything else. -/
def natural? (chars : List Char) : Option Nat :=
  if !chars.isEmpty && chars.all Char.isDigit then some (valueFrom 0 chars) else none

/-- The value of a numeral with an optional sign. -/
def integer? (chars : List Char) : Option Int :=
  match chars with
  | '-' :: digits => (natural? digits).map fun n => -(n : Int)
  | '+' :: digits => (natural? digits).map Int.ofNat
  | digits => (natural? digits).map Int.ofNat

/-- The least number of 64 bits with a sign. -/
def minInt64 : Int := -9223372036854775808

/-- The greatest number of 64 bits with a sign. -/
def maxInt64 : Int := 9223372036854775807

/-- The greatest number of 64 bits without a sign. -/
def maxUnsigned64 : Nat := 18446744073709551615

/-- Whether a number fits in 64 bits with a sign. -/
def fitsInt64 (n : Int) : Bool :=
  minInt64 ≤ n && n ≤ maxInt64

/-- The value of a numeral with an optional sign, if it fits in 64 bits. -/
def int64? (chars : List Char) : Option Int64 :=
  (integer? chars).bind fun n =>
    if fitsInt64 n then some (Int64.ofInt n) else none

/-- The value of a numeral with an optional plus sign, if it fits in 64 bits without sign. -/
def unsigned64? (chars : List Char) : Option Nat :=
  let digits := match chars with
    | '+' :: digits => digits
    | digits => digits
  (natural? digits).bind fun n => if n ≤ maxUnsigned64 then some n else none

end Numeral

/-! ## Decimal fractions

A decimal fraction is a coefficient times a power of ten with a sign. Its written form has no
exponent and no zeros behind its last digit after the point.
-/

/-- The value `coefficient * 10 ^ exponent`, below zero if `negative` holds. -/
structure Decimal where
  negative : Bool
  coefficient : Nat
  exponent : Int
deriving DecidableEq, Repr, Inhabited

namespace Decimal

/-- The number of digits of a number. -/
def digitCount (n : Nat) : Nat :=
  (toString n).length

/-- Digits without the zeros at their end. -/
def dropTrailingZeros (digits : List Char) : List Char :=
  (digits.reverse.dropWhile (· == '0')).reverse

/-- The digits of a fraction that has `places` digits behind the point; zeros at its end are
left out, and so is a point with nothing behind it. -/
def pointed (digits : List Char) (places : Nat) : List Char :=
  let padded := List.replicate (places + 1 - digits.length) '0' ++ digits
  let whole := padded.take (padded.length - places)
  match dropTrailingZeros (padded.drop (padded.length - places)) with
  | [] => whole
  | fraction => whole ++ '.' :: fraction

/-- The written form without an exponent. -/
def render (d : Decimal) : String :=
  let digits := (toString d.coefficient).toList
  let unsigned := match d.exponent with
    | .ofNat n => if d.coefficient = 0 then digits else digits ++ List.replicate n '0'
    | .negSucc k => pointed digits (k + 1)
  (if d.negative then "-" else "") ++ String.ofList unsigned

end Decimal

/-! ## Binary numbers of 64 bits

A double is a significand of at most 53 bits times a power of two, an infinity, or no number.
Reading a decimal fraction rounds it to the nearest double, to the even one of two; writing a
double takes the shortest decimal fraction that reads back as the same double.
-/

/-- A number of 64 bits. -/
inductive Double where
  /-- The value `significand * 2 ^ exponent`, below zero if `negative` holds. The significand has
  53 bits, or the exponent is the least one. -/
  | finite (negative : Bool) (significand : Nat) (exponent : Int)
  | infinite (negative : Bool)
  | notANumber
deriving DecidableEq, Repr, Inhabited

namespace Double

/-- The bound of significands. -/
def significandBound : Nat := 9007199254740992

/-- The least exponent. -/
def minExponent : Int := -1074

/-- The greatest exponent. -/
def maxExponent : Int := 971

/-- Zero with a sign. -/
def zero (negative : Bool) : Double :=
  .finite negative 0 minExponent

/-- The numerator and the denominator of a fraction times a power of a base. -/
def scale (base numerator denominator : Nat) : Int → Nat × Nat
  | .ofNat n => (numerator * Nat.pow base n, denominator)
  | .negSucc k => (numerator, denominator * Nat.pow base (k + 1))

/-- The nearest natural number to a fraction, the even one of two. -/
def nearestEven (numerator denominator : Nat) : Nat :=
  let quotient := numerator / denominator
  let twice := 2 * (numerator % denominator)
  if denominator < twice || (twice = denominator && quotient % 2 = 1) then quotient + 1
  else quotient

/-- The exponent for which the significand of a fraction has 53 bits, not below the least one. -/
def exponentOf (numerator denominator : Nat) : Int :=
  let guess := (numerator.log2 : Int) - denominator.log2 - 52
  let (n, d) := scale 2 numerator denominator (-guess)
  max minExponent (if 2 * n < significandBound * d then guess - 1 else guess)

/-- The double nearest to a positive fraction. -/
def ofFraction (negative : Bool) (numerator denominator : Nat) : Double :=
  let exponent := exponentOf numerator denominator
  let (n, d) := scale 2 numerator denominator (-exponent)
  let significand := nearestEven n d
  let (significand, exponent) :=
    if significand = significandBound then (significand / 2, exponent + 1)
    else (significand, exponent)
  if maxExponent < exponent then .infinite negative
  else .finite negative significand exponent

/-- Decimal fractions with more digits before the point are infinite. -/
def maxSize : Int := 310

/-- Decimal fractions with more zeros behind the point are zero. -/
def minSize : Int := -330

/-- The double nearest to a decimal fraction. -/
def ofDecimal (d : Decimal) : Double :=
  let size := Decimal.digitCount d.coefficient + d.exponent
  if d.coefficient = 0 || size < minSize then zero d.negative
  else if maxSize < size then .infinite d.negative
  else
    let (numerator, denominator) := scale 10 d.coefficient 1 d.exponent
    ofFraction d.negative numerator denominator

/-- The nearest natural number, halves away from zero, kept within 64 bits. Values below zero
and what is no number count as zero. -/
def toNatural : Double → Nat
  | .finite true .. => 0
  | .finite false significand exponent =>
    let (numerator, denominator) := scale 2 significand 1 exponent
    min Numeral.maxUnsigned64 ((2 * numerator + denominator) / (2 * denominator))
  | .infinite false => Numeral.maxUnsigned64
  | .infinite true | .notANumber => 0

/-- Digits behind the point that no double needs more of. -/
def spareDigits : Nat := 400

/-- The number of digits before the point of a positive fraction; zeros behind the point count
below zero. -/
def sizeOfFraction (numerator denominator : Nat) : Int :=
  (Decimal.digitCount (numerator * Nat.pow 10 spareDigits / denominator) : Int) - spareDigits

/-- The nearest decimal fraction of `count` digits that reads back as the same double, if one
does; `size` is the number of digits before the point. -/
def shortened? (value : Double) (negative : Bool) (numerator denominator : Nat) (size : Int)
    (count : Nat) : Option Decimal :=
  let exponent := size - count
  let (n, d) := scale 10 numerator denominator (-exponent)
  let lower : Decimal := ⟨negative, n / d, exponent⟩
  let upper : Decimal := ⟨negative, n / d + 1, exponent⟩
  let nearestFirst := if 2 * (n % d) < d then [lower, upper] else [upper, lower]
  nearestFirst.find? fun candidate => ofDecimal candidate = value

/-- The greatest number of digits that a double needs. -/
def maxDigits : Nat := 17

/-- The shortest decimal fraction that reads back as a finite double. -/
def shortest (negative : Bool) (significand : Nat) (exponent : Int) : Decimal :=
  let (n, d) := scale 2 significand 1 exponent
  let shortened := shortened? (.finite negative significand exponent) negative n d
    (sizeOfFraction n d)
  if significand = 0 then ⟨negative, 0, 0⟩
  else ((List.range' 1 maxDigits).findSome? shortened).getD ⟨negative, n / d, 0⟩

/-- The written form without an exponent. -/
def render : Double → String
  | .finite negative significand exponent => (shortest negative significand exponent).render
  | .infinite negative => if negative then "-inf" else "inf"
  | .notANumber => "NaN"

end Double

end Sumscript
