/-
HornSearch/Yaml/Style.lean

How a string is written as a YAML scalar.

It is written plainly where that reads back as the string, between single quotes
where only its meaning, an indicator or a line end forbids that, and between double
quotes, with escapes, if it holds anything but ASCII text, or blanks beside a line
end.  The name of a field stays on one line.

A line that has passed column eighty ends at the next blank.  Between single quotes
a line feed in the string is written as an empty line more than it has; between
double quotes a line ends with a backslash.
-/
import HornSearch.Text.Quoted
import HornSearch.Yaml.Scalar

namespace HornSearch.Yaml

/-- The ways to write a string. -/
inductive Style where
  | plain
  | single
  | double
  deriving DecidableEq

/-! ### The choice of a style -/

/-- Whether a colon or a number sign in the text, which stands after `previous`,
would end a plain scalar. -/
def endsPlain : Char → List Char → Bool
  | _, [] => false
  | previous, c :: cs =>
    (c == ':' && (cs.isEmpty || cs.head? == some ' ')) ||
    (c == '#' && previous == ' ') || endsPlain c cs

/-- Whether the text holds an indicator where a plain scalar must not have one. -/
def hasIndicator (cs : List Char) : Bool :=
  match cs with
  | [] => false
  | c :: rest =>
    "---".toList.isPrefixOf cs || "...".toList.isPrefixOf cs || indicators.contains c ||
    ((c == '?' || c == ':' || c == '-') && (rest.isEmpty || rest.head? == some ' ')) ||
    endsPlain c rest

/-- Whether the character is a printable ASCII character. -/
def isAscii (c : Char) : Bool := 32 ≤ c.toNat && c.toNat < 127

/-- Whether the text may be written without quotes. -/
def isPlain (cs : List Char) : Bool :=
  cs.all isAscii && readsAsString cs && !hasIndicator cs &&
  cs.head? != some ' ' && cs.getLast? != some ' '

/-- Whether a blank and a line feed stand side by side. -/
def hasBlankAtBreak : List Char → Bool
  | ' ' :: '\n' :: _ => true
  | '\n' :: ' ' :: _ => true
  | _ :: cs => hasBlankAtBreak cs
  | [] => false

/-- The style of a string. -/
def Style.of (cs : List Char) : Style :=
  if isPlain cs then .plain
  else if cs.all (fun c => isAscii c || c == '\n') && !hasBlankAtBreak cs then .single
  else .double

/-! ### Escapes -/

/-- The uppercase hexadecimal digits of `n`, at least `width` of them. -/
def upperHex (width n : Nat) : List Char := (Text.hexDigits width n).map Char.toUpper

/-- The letters of the short escapes. -/
def shortEscapes : List (Char × Char) :=
  [('\x00', '0'), ('\x07', 'a'), ('\x08', 'b'), ('\t', 't'), ('\n', 'n'), ('\x0b', 'v'),
    ('\x0c', 'f'), ('\r', 'r'), ('\x1b', 'e'), ('"', '"'), ('\\', '\\'), ('\u0085', 'N'),
    ('\u00a0', '_'), ('\u2028', 'L'), ('\u2029', 'P')]

/-- The characters that stand for `c` between double quotes, if it is escaped. -/
def escape? (c : Char) : Option (List Char) :=
  match shortEscapes.find? (·.1 == c) with
  | some (_, letter) => some ['\\', letter]
  | none =>
    if isAscii c then none
    else if c.toNat < 0x100 then some ('\\' :: 'x' :: upperHex 2 c.toNat)
    else if c.toNat < 0x10000 then some ('\\' :: 'u' :: upperHex 4 c.toNat)
    else some ('\\' :: 'U' :: upperHex 8 c.toNat)

/-! ### Lines -/

/-- The column after which a line ends at the next blank. -/
def bestWidth : Nat := 80

/-- The lines of a plain or single-quoted text whose next character stands at
`column`; a new line starts at `indent`.  `line` is the current line, read backwards,
`previous` the character before, `written` gives what stands for a character, and the
last line ends with `closing`.  A line ends only at a blank that stands alone between
other characters. -/
def foldedLines (indent : Nat) (written : Char → List Char) (closing : List Char) :
    Nat → List Char → Option Char → List Char → List (List Char)
  | _, line, _, [] => [line.reverse ++ closing]
  | column, line, previous, c :: cs =>
    if c == '\n' then
      -- the first line feed of a row ends the line, and each gives an empty one
      let rest := [] :: foldedLines indent written closing indent [] c cs
      if previous == some '\n' then rest else line.reverse :: rest
    else if c == ' ' && bestWidth < column && previous.elim false (· != ' ') &&
        cs.head?.elim false (· != ' ') then
      line.reverse :: foldedLines indent written closing indent [] c cs
    else
      let piece := written c
      foldedLines indent written closing (column + piece.length) (piece.reverse ++ line) c cs

/-- The lines of a double-quoted text whose next character stands at `column`.  Apart
from its blanks, a line may end before and after an escape, but not at the ends of the
text; a blank that starts a line is escaped. -/
def escapedLines (indent : Nat) :
    Nat → List Char → Bool → Bool → List Char → List (List Char)
  | _, line, _, _, [] => [line.reverse ++ ['"']]
  | column, line, isFirst, afterEscape, c :: cs =>
    let isInner := !isFirst && !cs.isEmpty
    match escape? c with
    | some piece =>
      let width := column + piece.length
      let line := piece.reverse ++ line
      if isInner && bestWidth + 1 < width then
        let start := if cs.head? == some ' ' then ['\\'] else []
        (line.reverse ++ ['\\']) :: escapedLines indent (indent + start.length) start false true cs
      else escapedLines indent width line false true cs
    | none =>
      if isInner && (c == ' ' || afterEscape) && bestWidth < column then
        let start := if c == ' ' then [c, '\\'] else [c]
        (line.reverse ++ ['\\']) :: escapedLines indent (indent + start.length) start false false cs
      else escapedLines indent (column + 1) (c :: line) false false cs

/-- A quote written twice. -/
def doubledQuote (c : Char) : List Char := if c == '\'' then [c, c] else [c]

/-- The lines of a string in a style. -/
def Style.lines (indent column : Nat) (cs : List Char) : Style → List (List Char)
  | .plain => foldedLines indent ([·]) [] column [] none cs
  | .single => foldedLines indent doubledQuote ['\''] (column + 1) ['\''] none cs
  | .double => escapedLines indent (column + 1) ['"'] true false cs

/-- The text of a string on one line, which its line ends have to be escaped for. -/
def Style.text (cs : List Char) : Style → List Char
  | .plain => cs
  | .single => '\'' :: cs.flatMap doubledQuote ++ ['\'']
  | .double => '"' :: cs.flatMap (fun c => (escape? c).getD [c]) ++ ['"']

end HornSearch.Yaml
