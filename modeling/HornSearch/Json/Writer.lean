/-
HornSearch/Json/Writer.lean

Writes a plain value as JSON text: ASCII only, two blanks of indentation for each
level, one element or field on a line, and empty lists and objects on the line
they stand on.  A tuple is written as a list, and a key that is no string as its
own text between quotes.  Quoted syntax has no such text.
-/
import HornSearch.Value.Text

namespace HornSearch.Json

/-- The escape of a UTF-16 unit. -/
def unitEscape (n : Nat) : List Char := '\\' :: 'u' :: Text.hexDigits 4 n

/-- The characters that stand for `c` in a string; a character beyond the first
plane is a pair of units. -/
def writeChar (c : Char) : List Char :=
  if c == '"' || c == '\\' then ['\\', c]
  else if c == '\n' then ['\\', 'n']
  else if c == '\r' then ['\\', 'r']
  else if c == '\t' then ['\\', 't']
  else if c == '\x08' then ['\\', 'b']
  else if c == '\x0c' then ['\\', 'f']
  else if 32 ≤ c.toNat ∧ c.toNat < 127 then [c]
  else if c.toNat < 0x10000 then unitEscape c.toNat
  else
    let n := c.toNat - 0x10000
    unitEscape (0xD800 + n / 0x400) ++ unitEscape (0xDC00 + n % 0x400)

/-- A string between quotes. -/
def writeString (s : String) : String :=
  String.ofList ('"' :: s.toList.flatMap writeChar ++ ['"'])

/-- The text of a double; NaN and the infinities have names. -/
def writeDouble : Double → String
  | .nan _ => "NaN"
  | .posInfinity => "Infinity"
  | .negInfinity => "-Infinity"
  | x => x.text

/-- The name that a key is written as. -/
def keyName : Value → String
  | .str s => s
  | .bool b => if b then "true" else "false"
  | .int n => toString n
  | .float x => writeDouble x
  | _ => "null"

/-- A new line at a level of indentation. -/
def newLine (level : Nat) : String := String.ofList ('\n' :: List.replicate (2 * level) ' ')

/-- The parts of a list or an object between its brackets. -/
def bracketed (opening closing : String) (level : Nat) (parts : List String) : String :=
  if parts.isEmpty then opening ++ closing
  else opening ++ newLine (level + 1) ++ ("," ++ newLine (level + 1)).intercalate parts ++
    newLine level ++ closing

mutual

/-- The text of a value at a level of indentation. -/
def writeAt (level : Nat) : Value → String
  | .bool true => "true"
  | .bool false => "false"
  | .int n => toString n
  | .float x => writeDouble x
  | .str s => writeString s
  | .list vs | .tuple vs => bracketed "[" "]" level (writeElements (level + 1) vs)
  | .object fields => bracketed "\x7b" "\x7d" level (writeFields (level + 1) fields)
  | .null | .quoted _ _ => "null"

/-- The texts of the elements of a list. -/
def writeElements (level : Nat) : List Value → List String
  | [] => []
  | v :: vs => writeAt level v :: writeElements level vs

/-- The texts of the fields of an object. -/
def writeFields (level : Nat) : List (Value × Value) → List String
  | [] => []
  | (key, v) :: fields =>
    (writeString (keyName key) ++ ": " ++ writeAt level v) :: writeFields level fields

end

/-- The JSON text of a value, if it is plain. -/
def write? (v : Value) : Option String := if v.isPlain then some (writeAt 0 v) else none

end HornSearch.Json
