/-
HornSearch/Json/Reader.lean

Reads a JSON text as a plain value.

Besides the standard numerals `NaN`, `Infinity` and `-Infinity` are read.  A
numeral with a fraction or an exponent is a double, any other a whole number.  Of
fields with one name the last gives the value.  Control characters may not stand
in a string.

The readers of values, elements and fields count down the nesting of their calls;
each call leaves a character behind, so the length of the text is enough.
-/
import HornSearch.Numeral
import HornSearch.Value

namespace HornSearch.Json

/-- Drops the blanks in front. -/
def skipBlanks (cs : List Char) : List Char :=
  cs.dropWhile fun c => c == ' ' || c == '\t' || c == '\n' || c == '\r'

/-! ### Strings -/

/-- The number of four hexadecimal digits in front. -/
def fourDigits? : List Char → Option (Nat × List Char)
  | a :: b :: c :: d :: rest =>
    if [a, b, c, d].all fun x => (Numeral.digit? x).isSome then
      some (Numeral.value 16 [a, b, c, d], rest)
    else none
  | _ => none

/-- The character of a code given by one escape or by a pair of them; half a pair
is none. -/
def codeEscape? (cs : List Char) : Option (Char × List Char) :=
  match fourDigits? cs with
  | none => none
  | some (n, rest) =>
    if 0xD800 ≤ n ∧ n < 0xDC00 then
      match rest with
      | '\\' :: 'u' :: rest =>
        match fourDigits? rest with
        | some (m, rest) =>
          if 0xDC00 ≤ m ∧ m < 0xE000 then
            some (Char.ofNat (0x10000 + (n - 0xD800) * 0x400 + (m - 0xDC00)), rest)
          else none
        | none => none
      | _ => none
    else if 0xDC00 ≤ n ∧ n < 0xE000 then none
    else some (Char.ofNat n, rest)

/-- The character that a letter after a backslash stands for. -/
def simpleEscape? : Char → Option Char
  | '"' => some '"'
  | '\\' => some '\\'
  | '/' => some '/'
  | 'b' => some '\x08'
  | 'f' => some '\x0c'
  | 'n' => some '\n'
  | 'r' => some '\r'
  | 't' => some '\t'
  | _ => none

/-- The characters of a string up to its closing quote, and the rest. -/
def readString : Nat → List Char → Option (List Char × List Char)
  | 0, _ => none
  | _ + 1, [] => none
  | _ + 1, '"' :: rest => some ([], rest)
  | fuel + 1, '\\' :: 'u' :: rest => do
    let (c, rest) ← codeEscape? rest
    let (cs, rest) ← readString fuel rest
    return (c :: cs, rest)
  | fuel + 1, '\\' :: e :: rest => do
    let c ← simpleEscape? e
    let (cs, rest) ← readString fuel rest
    return (c :: cs, rest)
  | fuel + 1, c :: rest =>
    if c.toNat < 32 || c == '\\' then none
    else do
      let (cs, rest) ← readString fuel rest
      return (c :: cs, rest)

/-! ### Numerals and names -/

/-- The number in front. -/
def readNumber (cs : List Char) : Reading (Value × List Char) :=
  let (negative, cs) := match cs with
    | '-' :: cs => (true, cs)
    | cs => (false, cs)
  let (digits, _) := Numeral.spanDigits cs
  let whole := if digits.head? == some '0' then ['0'] else digits
  let rest := cs.drop whole.length
  if whole.isEmpty then .error .ungrammatical else
  let (fraction, afterFraction) := match rest with
    | '.' :: after => Numeral.spanDigits after
    | _ => ([], rest)
  let rest := if fraction.isEmpty then rest else afterFraction
  let (exponent, afterExponent) := Numeral.spanExponent true rest
  if fraction.isEmpty && afterExponent.length == rest.length then
    (Numeral.decimal whole).map fun n => (.int (if negative then -(n : Int) else n), rest)
  else .ok (.float (Numeral.double negative whole fraction exponent), afterExponent)

/-- The values that are written as names. -/
def names : List (String × Value) :=
  [("null", .null), ("true", .bool true), ("false", .bool false), ("NaN", .float (.nan 0)),
    ("Infinity", .float .posInfinity), ("-Infinity", .float .negInfinity)]

/-- The value of the name in front. -/
def readName (cs : List Char) : Option (Value × List Char) :=
  (names.find? fun n => n.1.toList.isPrefixOf cs).map fun n => (n.2, cs.drop n.1.length)

/-! ### Values -/

mutual

/-- The value in front, which no blank precedes. -/
def readValue : Nat → List Char → Reading (Value × List Char)
  | 0, _ => .error .ungrammatical
  | fuel + 1, '"' :: rest => do
    let (cs, rest) ← .ofOption (readString fuel rest)
    return (.str (String.ofList cs), rest)
  | fuel + 1, '[' :: rest =>
    match skipBlanks rest with
    | ']' :: rest => .ok (.list [], rest)
    | rest => do
      let (vs, rest) ← readElements fuel rest
      return (.list vs, rest)
  | fuel + 1, '\x7b' :: rest =>
    match skipBlanks rest with
    | '\x7d' :: rest => .ok (.object [], rest)
    | rest => do
      let (fields, rest) ← readFields fuel rest
      return (Value.ofFields fields, rest)
  | _ + 1, cs =>
    match readName cs with
    | some read => .ok read
    | none => readNumber cs

/-- The elements of a list up to its closing bracket, at least one. -/
def readElements : Nat → List Char → Reading (List Value × List Char)
  | 0, _ => .error .ungrammatical
  | fuel + 1, cs => do
    let (v, rest) ← readValue fuel cs
    match skipBlanks rest with
    | ']' :: rest => return ([v], rest)
    | ',' :: rest =>
      let (vs, rest) ← readElements fuel (skipBlanks rest)
      return (v :: vs, rest)
    | _ => throw .ungrammatical

/-- The fields of an object up to its closing brace, at least one. -/
def readFields : Nat → List Char → Reading (List (Value × Value) × List Char)
  | 0, _ => .error .ungrammatical
  | fuel + 1, '"' :: rest => do
    let (name, rest) ← .ofOption (readString fuel rest)
    match skipBlanks rest with
    | ':' :: rest =>
      let (v, rest) ← readValue fuel (skipBlanks rest)
      let field := (.str (String.ofList name), v)
      match skipBlanks rest with
      | '\x7d' :: rest => return ([field], rest)
      | ',' :: rest =>
        let (fields, rest) ← readFields fuel (skipBlanks rest)
        return (field :: fields, rest)
      | _ => throw .ungrammatical
    | _ => throw .ungrammatical
  | _ + 1, _ => .error .ungrammatical

end

/-- The value of a JSON text. -/
def read (text : String) : Reading Value := do
  let cs := text.toList
  let (v, rest) ← readValue (cs.length + 1) (skipBlanks cs)
  if (skipBlanks rest).isEmpty then return v else throw .ungrammatical

end HornSearch.Json
