/-
HornSearch/Double/Shortest.lean

The shortest decimal text of a double.

The numbers that round to a given double form an interval, which includes its
ends exactly if the significand is even.  For one, two, … seventeen digits the
two neighbours of the double on that decimal grid are tested against the
interval; the first grid with a hit wins, and of two hits the nearer, a tie going
to the even digit.  All of it is exact arithmetic on natural numbers.

`Double.text` lays the digits out: positional between the two bounds of
`Layout`, scientific outside.
-/
import HornSearch.Double

namespace HornSearch

/-- Decimal digits `d₁d₂…dₙ`, standing for `d₁.d₂…dₙ · 10 ^ exponent`. -/
structure DecimalDigits where
  digits : List Char
  exponent : Int

namespace DecimalDigits

/-- The digits of `c · 10 ^ p`, without zeros at the end. -/
def ofScaled (c : Nat) (p : Int) : DecimalDigits :=
  let all := Nat.toDigits 10 c
  ⟨(all.reverse.dropWhile (· == '0')).reverse, p + all.length - 1⟩

end DecimalDigits

/-- The interval of numbers that round to a double, in units of
`10 ^ p / unit` for a grid `p` chosen by the reader. -/
structure RoundingInterval where
  low : Nat
  value : Nat
  high : Nat
  closed : Bool

namespace RoundingInterval

/-- Whether a number in the units of the interval rounds to its double. -/
def holds (i : RoundingInterval) (x : Nat) : Bool :=
  if i.closed then decide (i.low ≤ x ∧ x ≤ i.high) else decide (i.low < x ∧ x < i.high)

/-- The multiple of `unit` in the interval that is next to its value, if any;
the nearer of two, the even one of two equally near. -/
def multiple? (i : RoundingInterval) (unit : Nat) : Option Nat :=
  let c := i.value / unit
  let r := i.value % unit
  let below := i.holds (c * unit)
  let above := i.holds ((c + 1) * unit)
  match below, above with
  | false, false => none
  | true, false => some c
  | false, true => some (c + 1)
  | true, true => some (if 2 * r < unit then c else if unit < 2 * r then c + 1 else c + c % 2)

end RoundingInterval

namespace Double

/-- The decimal exponent of the first digit of `n / d`, both positive. -/
def leadingExponent (n d : Nat) : Int :=
  if d ≤ n then (Nat.toDigits 10 (n / d)).length - 1
  else -((Nat.toDigits 10 ((d + n - 1) / n - 1)).length : Int)

/-- The fewest digits that read back as `m · 2 ^ e`, where `m` is a positive
significand of the format. -/
def shortestDigits (m : Nat) (e : Int) : DecimalDigits :=
  -- in units of a quarter of the last place all three numbers are whole
  let quarter := e - 2
  let up := Nat.pow 2 quarter.toNat
  let down := Nat.pow 2 (-quarter).toNat
  -- below a power of two the neighbour is nearer
  let low :=
    if m = Nat.pow 2 (precision - 1) && decide (leastExponent < e) then 4 * m - 1 else 4 * m - 2
  let first := leadingExponent (4 * m * up) down
  let grid (count : Nat) : Option DecimalDigits :=
    let p := first - count
    let ten := Nat.pow 10 p.toNat
    let tenth := Nat.pow 10 (-p).toNat
    let interval : RoundingInterval :=
      ⟨low * up * tenth, 4 * m * up * tenth, (4 * m + 2) * up * tenth, m % 2 == 0⟩
    (interval.multiple? (ten * down)).map (DecimalDigits.ofScaled · p)
  ((List.range 17).findSome? grid).getD ⟨['0'], 0⟩

/-- The significand and exponent of a nonzero number of the format. -/
def significand (n : Nat) (k : Int) : Nat × Int :=
  let e := max leastExponent (-k + n.log2 + 1 - precision)
  (n <<< (-k - e).toNat, e)

/-! ### Layout -/

/-- How digits are laid out. -/
structure Layout where
  /-- The least exponent that is written positionally. -/
  lowest : Int
  /-- The largest exponent that is written positionally. -/
  highest : Int
  /-- The least number of digits of a written exponent. -/
  exponentWidth : Nat

/-- Doubles are written positionally from `0.0001` to below `10 ^ 16`, and an
exponent has at least two digits. -/
def layout : Layout := ⟨-4, 15, 2⟩

/-- Zeros in front of a numeral up to a width. -/
def padded (width : Nat) (digits : List Char) : List Char :=
  List.replicate (width - digits.length) '0' ++ digits

/-- The text of positive digits in a layout. -/
def Layout.write (l : Layout) (d : DecimalDigits) : List Char :=
  if l.lowest ≤ d.exponent ∧ d.exponent ≤ l.highest then
    if d.exponent < 0 then
      '0' :: '.' :: List.replicate (-d.exponent - 1).toNat '0' ++ d.digits
    else
      let whole := d.exponent.toNat + 1
      let fraction := d.digits.drop whole
      d.digits.take whole ++ List.replicate (whole - d.digits.length) '0' ++
        '.' :: (if fraction.isEmpty then ['0'] else fraction)
  else
    let rest := d.digits.drop 1
    d.digits.take 1 ++ (if rest.isEmpty then [] else '.' :: rest) ++
      'e' :: (if d.exponent < 0 then '-' else '+') ::
        padded l.exponentWidth (Nat.toDigits 10 d.exponent.natAbs)

/-- The shortest text that reads back as the double. -/
def text : Double → String
  | .nan _ => "nan"
  | .negInfinity => "-inf"
  | .posInfinity => "inf"
  | .negZero => "-0.0"
  | .finite .zero => "0.0"
  | .finite (.ofOdd n k _) =>
    let (m, e) := significand n.natAbs k
    let body := layout.write (shortestDigits m e)
    String.ofList (if n < 0 then '-' :: body else body)

end Double

end HornSearch
