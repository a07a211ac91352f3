/-
HornSearch/Yaml/Scalar.lean

What a plain YAML scalar, one without quotes, stands for.  The rules are those of
version 1.1: null, truth values and numbers have several spellings each, a double
needs a point, and an exponent needs a sign.  Anything else is a string, except for
two special keys, which are no values.  A whole number in a base may be without
digits, since underscores do not count; it has no value then.

`resolve` gives the value, and `readsAsString` says whether a text may be written
plainly as far as its meaning goes; dates and the special keys may not.
-/
import HornSearch.Numeral
import HornSearch.Value

namespace HornSearch.Yaml

/-- The characters that no plain scalar starts with. -/
def indicators : List Char :=
  ['#', ',', '[', ']', '\x7b', '\x7d', '&', '*', '!', '|', '>', '\x27', '\x22', '%', '@', '\x60']

/-- The spellings of null. -/
def nullNames : List String := ["", "~", "null", "Null", "NULL"]

/-- The spellings of the truth value true. -/
def trueNames : List String :=
  ["yes", "Yes", "YES", "true", "True", "TRUE", "on", "On", "ON"]

/-- The spellings of the truth value false. -/
def falseNames : List String :=
  ["no", "No", "NO", "false", "False", "FALSE", "off", "Off", "OFF"]

/-- The spellings of infinity, without a sign. -/
def infinityNames : List String := [".inf", ".Inf", ".INF"]

/-- The spellings of NaN. -/
def nanNames : List String := [".nan", ".NaN", ".NAN"]

/-- Splits off a sign. -/
def spanSign : List Char → Bool × List Char
  | '-' :: cs => (true, cs)
  | '+' :: cs => (false, cs)
  | cs => (false, cs)

/-- Whether the character is a digit or an underscore. -/
def isLoose (c : Char) : Bool := c.isDigit || c == '_'

/-- Removes the underscores. -/
def tight (cs : List Char) : List Char := cs.filter (· != '_')

/-- The parts of a numeral to the base sixty after its first part: each a colon
and one or two digits, below sixty. -/
def sixtieths : List Char → Option (List Nat)
  | [] => some []
  | [':', a] => if a.isDigit then some [Numeral.value 10 [a]] else none
  | ':' :: a :: ':' :: rest =>
    if a.isDigit then (sixtieths (':' :: rest)).map (Numeral.value 10 [a] :: ·) else none
  | ':' :: a :: b :: rest =>
    if '0' ≤ a && a ≤ '5' && b.isDigit then
      (sixtieths rest).map (Numeral.value 10 [a, b] :: ·)
    else none
  | _ => none

/-! ### Whole numbers -/

/-- The number of digits to a base, which is a power of two; underscores do not
count. -/
def digitsTo (base : Nat) (cs : List Char) : Reading Nat :=
  if (tight cs).isEmpty then .error (.numeral (.noDigits base))
  else .ok (Numeral.value base cs)

/-- The number of a text without its sign, if it is a whole number. -/
def magnitude? : List Char → Option (Reading Nat)
  | ['0'] => some (.ok 0)
  | '0' :: 'b' :: c :: cs =>
    if (c :: cs).all (fun c => c == '0' || c == '1' || c == '_') then
      some (digitsTo 2 (c :: cs)) else none
  | '0' :: 'x' :: c :: cs =>
    if (c :: cs).all (fun c => (Numeral.digit? c).isSome || c == '_') then
      some (digitsTo 16 (c :: cs)) else none
  | '0' :: c :: cs =>
    if (c :: cs).all (fun c => ('0' ≤ c && c ≤ '7') || c == '_') then
      some (digitsTo 8 ('0' :: c :: cs)) else none
  | c :: cs =>
    if '1' ≤ c && c ≤ '9' then
      let first := tight (c :: cs.takeWhile isLoose)
      (sixtieths (cs.dropWhile isLoose)).map fun parts =>
        (Numeral.decimal first).map fun n => parts.foldl (60 * · + ·) n
    else none
  | [] => none

/-- The whole number of a text. -/
def int? (cs : List Char) : Option (Reading Int) :=
  let (negative, rest) := spanSign cs
  (magnitude? rest).map fun r => r.map fun n => if negative then -(n : Int) else n

/-! ### Doubles -/

/-- The double of parts to the base sixty, of which the last has a fraction.  The
sum is rounded at each part, from the last one. -/
def sixtyfold (parts : List Nat) (fraction : List Char) : Double :=
  match parts.reverse with
  | [] => Numeral.double false [] fraction 0
  | last :: others =>
    let start := Numeral.double false (Nat.toDigits 10 last) fraction 0
    (others.foldl (fun (x, unit) n => (x.addInt (n * unit), 60 * unit))
      (start, 60)).1

/-- The double of a text that starts with a digit: an optional part to the base
sixty, a point, a fraction, and an exponent unless there was such a part. -/
def fixedDouble? (negative : Bool) (cs : List Char) : Option Double :=
  let whole := cs.takeWhile isLoose
  let rest := cs.dropWhile isLoose
  match rest with
  | '.' :: rest =>
    let fraction := rest.takeWhile isLoose
    let (exponent, rest) := Numeral.spanExponent false (rest.dropWhile isLoose)
    if rest.isEmpty then some (Numeral.double negative (tight whole) (tight fraction) exponent)
    else none
  | ':' :: _ =>
    let fraction := (rest.dropWhile (· != '.')).drop 1
    match sixtieths (rest.takeWhile (· != '.')) with
    | some parts =>
      if rest.contains '.' && fraction.all isLoose then
        let x := sixtyfold (Numeral.value 10 whole :: parts) (tight fraction)
        some (if negative then x.negate else x)
      else none
    | none => none
  | _ => none

/-- The double of a text. -/
def double? (cs : List Char) : Option Double :=
  let (negative, rest) := spanSign cs
  let text := String.ofList rest
  if infinityNames.contains text then some (Double.infinity negative)
  else if nanNames.contains (String.ofList cs) then some (.nan 1)
  else match rest with
    | '.' :: c :: after =>
      if c.isDigit && rest.length == cs.length then
        let fraction := c :: after.takeWhile isLoose
        let (exponent, rest) := Numeral.spanExponent false (after.dropWhile isLoose)
        if rest.isEmpty then some (Numeral.double false [] (tight fraction) exponent) else none
      else none
    | c :: _ => if c.isDigit then fixedDouble? negative rest else none
    | [] => none

/-! ### Resolution -/

/-- The plain scalars that are special keys. -/
def specialKeys : List String := ["=", "<<"]

/-- The value of a plain scalar, where a special key is a string. -/
def resolveKey (cs : List Char) : Reading Value :=
  let text := String.ofList cs
  if nullNames.contains text then .ok .null
  else if trueNames.contains text then .ok (.bool true)
  else if falseNames.contains text then .ok (.bool false)
  else match int? cs with
    | some r => r.map .int
    | none =>
      match double? cs with
      | some x => .ok (.float x)
      | none => .ok (.str text)

/-- The value of a plain scalar. -/
def resolve (cs : List Char) : Reading Value :=
  if specialKeys.contains (String.ofList cs) then .error .ungrammatical else resolveKey cs

/-- The text without between `least` and `most` digits in front. -/
def dropDigits? (least most : Nat) (cs : List Char) : Option (List Char) :=
  let digits := (cs.take most).takeWhile Char.isDigit
  if least ≤ digits.length then some (cs.drop digits.length) else none

/-- The text without a character in front. -/
def dropChar? (c : Char) : List Char → Option (List Char)
  | d :: cs => if c == d then some cs else none
  | [] => none

/-- Whether the text is a zone: nothing, `Z`, or hours and minutes. -/
def isZone (cs : List Char) : Bool :=
  match cs.dropWhile fun c => c == ' ' || c == '\t' with
  | [] => cs.isEmpty
  | ['Z'] => true
  | c :: rest =>
    (c == '+' || c == '-') &&
    match dropDigits? 1 2 rest with
    | some [] => true
    | some rest => ((dropChar? ':' rest).bind (dropDigits? 2 2)) == some []
    | none => false

/-- Whether the text is a time of day with an optional zone. -/
def isClock (cs : List Char) : Bool :=
  let afterSeconds := do
    let cs ← dropDigits? 1 2 cs
    let cs ← dropDigits? 2 2 (← dropChar? ':' cs)
    dropDigits? 2 2 (← dropChar? ':' cs)
  match afterSeconds with
  | some ('.' :: cs) => isZone (cs.dropWhile Char.isDigit)
  | some cs => isZone cs
  | none => false

/-- Whether the text is a date or a date with a time. -/
def isTimestamp (cs : List Char) : Bool :=
  let day := do
    let cs ← dropDigits? 2 2 (← dropChar? '-' (← dropDigits? 4 4 cs))
    dropDigits? 2 2 (← dropChar? '-' cs)
  let moment := do
    let cs ← dropDigits? 1 2 (← dropChar? '-' (← dropDigits? 4 4 cs))
    dropDigits? 1 2 (← dropChar? '-' cs)
  day == some [] ||
  match moment with
  | some (c :: rest) =>
    if c == 'T' || c == 't' then isClock rest
    else if c == ' ' || c == '\t' then isClock (rest.dropWhile fun c => c == ' ' || c == '\t')
    else false
  | _ => false

/-- Whether a plain scalar of this text stands for the text itself. -/
def readsAsString (cs : List Char) : Bool :=
  match resolve cs with
  | .ok (.str _) => !isTimestamp cs
  | _ => false

end HornSearch.Yaml
