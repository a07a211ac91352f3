/-
HornSearch/Yaml/Quoted.lean

Reads the quoted scalars of YAML.  Between single quotes a quote is written twice
and all else stands for itself; between double quotes a backslash starts an escape.

A quoted scalar may run over several lines.  A line end stands for a blank, or for
as many line feeds as empty lines follow it, and the blanks around it do not count.
Between double quotes a backslash in front of a line end leaves it out.

The readers count down the characters that are left.
-/
import HornSearch.Numeral

namespace HornSearch.Yaml

/-! ### Line ends -/

/-- Whether the character is a blank inside a line. -/
def isInnerBlank (c : Char) : Bool := c == ' ' || c == '\t'

/-- Drops the blanks and line ends in front, and counts the line ends. -/
def spanBreaks : List Char → Nat × List Char
  | [] => (0, [])
  | c :: cs =>
    if c == '\n' then
      let (count, rest) := spanBreaks cs
      (count + 1, rest)
    else if isInnerBlank c then spanBreaks cs
    else (0, c :: cs)

/-- What the line end in front of `cs`, after any blanks, stands for, and the rest. -/
def foldedBreak? (cs : List Char) : Option (List Char × List Char) :=
  match cs.dropWhile isInnerBlank with
  | '\n' :: rest =>
    let (count, rest) := spanBreaks rest
    some (if count = 0 then [' '] else List.replicate count '\n', rest)
  | _ => none

/-! ### Single quotes -/

/-- The text of a single-quoted scalar after its opening quote, and the rest. -/
def readSingle : Nat → List Char → Option (List Char × List Char)
  | 0, _ => none
  | fuel + 1, cs =>
    match foldedBreak? cs, cs with
    | some (text, rest), _ => (readSingle fuel rest).map fun r => (text ++ r.1, r.2)
    | none, '\'' :: '\'' :: rest => (readSingle fuel rest).map fun r => ('\'' :: r.1, r.2)
    | none, c :: rest =>
      if c == '\'' then some ([], rest) else (readSingle fuel rest).map fun r => (c :: r.1, r.2)
    | none, [] => none

/-! ### Double quotes -/

/-- The characters of the short escapes. -/
def shortEscape? : Char → Option Char
  | '0' => some '\x00'
  | 'a' => some '\x07'
  | 'b' => some '\x08'
  | 't' => some '\t'
  | '\t' => some '\t'
  | 'n' => some '\n'
  | 'v' => some '\x0b'
  | 'f' => some '\x0c'
  | 'r' => some '\r'
  | 'e' => some '\x1b'
  | ' ' => some ' '
  | '"' => some '"'
  | '/' => some '/'
  | '\\' => some '\\'
  | 'N' => some '\u0085'
  | '_' => some '\u00a0'
  | 'L' => some '\u2028'
  | 'P' => some '\u2029'
  | _ => none

/-- The number of digits that follow the letter of a long escape. -/
def codeWidth? : Char → Option Nat
  | 'x' => some 2
  | 'u' => some 4
  | 'U' => some 8
  | _ => none

/-- The character of a code point, if it is one. -/
def charOfCode? (n : Nat) : Option Char := if n.isValidChar then some (Char.ofNat n) else none

/-- The text of the escape after a backslash, and the rest. -/
def readEscape : List Char → Option (List Char × List Char)
  | [] => none
  | '\n' :: rest =>
    let (count, rest) := spanBreaks rest
    some (List.replicate count '\n', rest)
  | c :: rest =>
    match codeWidth? c with
    | none => (shortEscape? c).map fun c => ([c], rest)
    | some width =>
      let digits := rest.take width
      if digits.length == width && digits.all fun d => (Numeral.digit? d).isSome then
        (charOfCode? (Numeral.value 16 digits)).map fun c => ([c], rest.drop width)
      else none

/-- The text of a double-quoted scalar after its opening quote, and the rest. -/
def readDouble : Nat → List Char → Option (List Char × List Char)
  | 0, _ => none
  | fuel + 1, cs =>
    match foldedBreak? cs, cs with
    | some (text, rest), _ => (readDouble fuel rest).map fun r => (text ++ r.1, r.2)
    | none, '"' :: rest => some ([], rest)
    | none, '\\' :: rest => do
      let (text, rest) ← readEscape rest
      let (more, rest) ← readDouble fuel rest
      return (text ++ more, rest)
    | none, c :: rest => (readDouble fuel rest).map fun r => (c :: r.1, r.2)
    | none, [] => none

/-- The text of the quoted scalar in front, and the rest; nothing if no quote is
in front. -/
def readQuoted? : List Char → Option (Option (List Char × List Char))
  | '"' :: rest => some (readDouble (rest.length + 1) rest)
  | '\'' :: rest => some (readSingle (rest.length + 1) rest)
  | _ => none

end HornSearch.Yaml
