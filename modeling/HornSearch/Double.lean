/-
HornSearch/Double.lean

Binary64 numbers as exact numbers.  A finite double is a dyadic rational, so
equality, order and the next serial are computed without rounding except where
the format itself rounds; no machine floating point is involved.

* `Double.quantity?` gives the exact extended number a double stands for, none
  for NaN.  Both zeros stand for zero.
* A NaN has a payload.  It has no part in arithmetic or in the text, and tells one
  NaN from another where a value is asked to be the very same.
* `Double.ofRatio` rounds a quotient to the nearest double, a half going to the
  even neighbour, and `Double.ofDecimal` reads a decimal numeral that way.
-/

namespace HornSearch

/-- A binary64 number; the negative zero is a value of its own. -/
inductive Double where
  | nan (payload : Nat)
  | negInfinity
  | posInfinity
  | negZero
  | finite (x : Dyadic)
  deriving DecidableEq

/-- An exact number, or one of the two infinities. -/
inductive Quantity where
  | negInfinity
  | exact (x : Dyadic)
  | posInfinity
  deriving DecidableEq

namespace Quantity

/-- The whole number `n` as a quantity. -/
def ofInt (n : Int) : Quantity := .exact (Dyadic.ofInt n)

/-- The strict order: the infinities enclose the exact numbers. -/
def lt : Quantity → Quantity → Bool
  | .exact x, .exact y => decide (x < y)
  | .negInfinity, .negInfinity => false
  | .negInfinity, _ => true
  | .exact _, .posInfinity => true
  | _, _ => false

end Quantity

/-! ### Rounding -/

/-- The whole number nearest to `n / d`; a half goes to the even neighbour. -/
def roundHalfEven (n d : Nat) : Nat :=
  let q := n / d
  let r := n % d
  if 2 * r < d then q else if d < 2 * r then q + 1 else q + q % 2

namespace Double

/-- Zero with a sign. -/
def zero (negative : Bool) : Double := if negative then .negZero else .finite 0

/-- Infinity with a sign. -/
def infinity (negative : Bool) : Double := if negative then .negInfinity else .posInfinity

/-- The exact number a double stands for; NaN stands for none. -/
def quantity? : Double → Option Quantity
  | .nan _ => none
  | .negInfinity => some .negInfinity
  | .posInfinity => some .posInfinity
  | .negZero => some (.exact 0)
  | .finite x => some (.exact x)

/-- Whether two doubles are one NaN. -/
def isSameNaN : Double → Double → Bool
  | .nan i, .nan j => i == j
  | _, _ => false

/-- The least binary exponent of the format. -/
def leastExponent : Int := -1074

/-- The number of bits of a full significand. -/
def precision : Nat := 53

/-- The largest exponent: every finite double is below two to this power. -/
def overflowExponent : Nat := 1024

/-- The double with the given sign nearest to `n / d`, where `d` is positive.
The binary exponent is chosen so that the rounded significand has `precision`
bits, or is the least one. -/
def ofRatio (negative : Bool) (n d : Nat) : Double :=
  if n = 0 then zero negative else
  -- both parts of `n / (d · 2 ^ e)`, of which one is shifted
  let scaled (e : Int) : Nat × Nat := (n <<< (-e).toNat, d <<< e.toNat)
  -- the quotient has 53 or 54 bits here, or the exponent is the least one
  let first := max leastExponent ((n.log2 : Int) - d.log2 - precision)
  let (top, bottom) := scaled first
  let e := if top / bottom < Nat.pow 2 precision then first else first + 1
  let (top, bottom) := scaled e
  let x := Dyadic.ofIntWithPrec (roundHalfEven top bottom) (-e)
  if x = 0 then zero negative
  else if Dyadic.ofIntWithPrec 1 (-overflowExponent) ≤ x then infinity negative
  else .finite (if negative then -x else x)

/-- The double nearest to an exact number. -/
def ofDyadic : Dyadic → Double
  | .zero => .finite 0
  | .ofOdd n k _ => ofRatio (decide (n < 0)) (n.natAbs <<< (-k).toNat) (1 <<< k.toNat)

/-- The double nearest to `digits · 10 ^ exponent`.  Exponents far outside the
format are decided by the number of digits alone. -/
def ofDecimal (negative : Bool) (digits : Nat) (exponent : Int) : Double :=
  let magnitude := (Nat.toDigits 10 digits).length + exponent
  if digits = 0 || decide (magnitude < -400) then zero negative
  else if 400 < magnitude then infinity negative
  else ofRatio negative (digits * Nat.pow 10 exponent.toNat) (Nat.pow 10 (-exponent).toNat)

/-- The double nearest to the sum of a double and a whole number. -/
def addInt (n : Int) : Double → Double
  | .negZero => ofDyadic (.ofInt n)
  | .finite x => ofDyadic (x + .ofInt n)
  | x => x

/-- The double nearest to `x + 1`; after a NaN comes one with the next payload. -/
def successor : Double → Double
  | .nan i => .nan (i + 1)
  | x => x.addInt 1

/-- The double with the other sign. -/
def negate : Double → Double
  | .nan i => .nan i
  | .negInfinity => .posInfinity
  | .posInfinity => .negInfinity
  | .negZero => .finite 0
  | .finite x => if x = 0 then .negZero else .finite (-x)

end Double

end HornSearch
