/-
HornSearch/Numeral.lean

Decimal numerals as lists of characters: their value, and the double that a
numeral with a fraction and an exponent stands for.

A text may be in its grammar and still hold a numeral without a value: nothing
after the mark of a base, or more decimal digits than are read.  `ReadError` tells
the two from a text that is not in the grammar at all.  No more digits are written
than are read, so a whole number may be too long to be written.
-/
import HornSearch.Double

namespace HornSearch

/-- What is wrong with a numeral. -/
inductive NumeralFlaw where
  /-- No digits follow the mark of a base. -/
  | noDigits (base : Nat)
  /-- There are more decimal digits than are read. -/
  | tooManyDigits (count : Nat)
  /-- A number has more decimal digits than are written. -/
  | tooLong
  deriving DecidableEq

/-- Why a text stands for no value. -/
inductive ReadError where
  /-- The text is not in the grammar. -/
  | ungrammatical
  /-- A numeral in the text has no value. -/
  | numeral (flaw : NumeralFlaw)
  deriving DecidableEq

/-- What is read, or why nothing is. -/
abbrev Reading := Except ReadError

/-- What was found, where finding nothing means that the text is not in the
grammar. -/
def Reading.ofOption {α : Type} : Option α → Reading α
  | some a => .ok a
  | none => .error .ungrammatical

namespace Numeral

/-- The number that a digit of any base up to sixteen stands for. -/
def digit? (c : Char) : Option Nat :=
  if '0' ≤ c ∧ c ≤ '9' then some (c.toNat - 48)
  else if 'a' ≤ c ∧ c ≤ 'f' then some (c.toNat - 87)
  else if 'A' ≤ c ∧ c ≤ 'F' then some (c.toNat - 55)
  else none

/-- The number that digits stand for in a base; other characters are skipped. -/
def value (base : Nat) (digits : List Char) : Nat :=
  digits.foldl (fun n c => match digit? c with | some d => base * n + d | none => n) 0

/-- The number that digits stand for in a base, with a sign. -/
def signed (negative : Bool) (base : Nat) (digits : List Char) : Int :=
  if negative then -(value base digits : Int) else value base digits

/-- The largest number of decimal digits of a whole number that are read or written. -/
def mostDigits : Nat := 4300

/-- The number that decimal digits stand for; there may be only so many. -/
def decimal (digits : List Char) : Reading Nat :=
  if mostDigits < digits.length then .error (.numeral (.tooManyDigits digits.length))
  else .ok (value 10 digits)

/-- Whether a number has at most so many decimal digits. -/
def fits : Nat → Nat → Bool
  | 0, n => n == 0
  | count + 1, n => if n < 10 then true else fits count (n / 10)

/-- Whether a whole number is short enough to be written. -/
def isWritten (n : Int) : Bool := fits mostDigits n.natAbs

/-- The double nearest to `whole.fraction · 10 ^ exponent`. -/
def double (negative : Bool) (whole fraction : List Char) (exponent : Int) : Double :=
  Double.ofDecimal negative (value 10 (whole ++ fraction)) (exponent - fraction.length)

/-- Splits off the digits in front. -/
def spanDigits (cs : List Char) : List Char × List Char := cs.span Char.isDigit

/-- Splits off an exponent: its mark, a sign unless it may be left out, digits.
Without one the exponent is zero and nothing is split off. -/
def spanExponent (signOptional : Bool) (cs : List Char) : Int × List Char :=
  match cs with
  | e :: rest =>
    if e == 'e' || e == 'E' then
      let (hasSign, negative, rest) := match rest with
        | '-' :: rest => (true, true, rest)
        | '+' :: rest => (true, false, rest)
        | rest => (false, false, rest)
      let (digits, after) := spanDigits rest
      if digits.isEmpty || !(hasSign || signOptional) then (0, cs)
      else (signed negative 10 digits, after)
    else (0, cs)
  | [] => (0, [])

/-- The double that a whole text stands for: digits with an optional sign,
fraction and exponent, or the text of an infinity or NaN. -/
def double? (text : String) : Option Double :=
  let (negative, cs) := match text.toList with
    | '-' :: cs => (true, cs)
    | '+' :: cs => (false, cs)
    | cs => (false, cs)
  if cs == "inf".toList then some (Double.infinity negative)
  else if cs == "nan".toList then some (.nan 0)
  else
    let (whole, rest) := spanDigits cs
    let (fraction, rest) := match rest with
      | '.' :: rest => spanDigits rest
      | rest => ([], rest)
    let (exponent, rest) := spanExponent true rest
    if rest.isEmpty && !(whole.isEmpty && fraction.isEmpty) then
      some (double negative whole fraction exponent)
    else none

end Numeral

end HornSearch
