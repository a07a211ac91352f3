/-
HornSearch/Yaml/Writer.lean

Writes a plain value as a YAML document in block style.  The elements of a list
stand at the indentation of the key they belong to, the fields of an object two
blanks further in; empty lists and objects are written in brackets.  A tuple is
written as a list.  Quoted syntax has no such text.

A key stands in front of a colon if it is short and on one line.  Any other key, and
the empty one, has a mark of its own, and so has its value.
-/
import HornSearch.Value.Text
import HornSearch.Yaml.Style

namespace HornSearch.Yaml

/-! ### Scalars -/

/-- The text of a double: an exponent needs a point before it. -/
def writeDouble : Double → String
  | .nan _ => ".nan"
  | .posInfinity => ".inf"
  | .negInfinity => "-.inf"
  | x =>
    let cs := x.text.toList
    if cs.contains '.' then x.text
    else String.ofList (cs.flatMap fun c => if c == 'e' then ".0e".toList else [c])

/-- The text of a scalar that is no string; empty lists and objects count as such. -/
def writeScalar : Value → String
  | .bool true => "true"
  | .bool false => "false"
  | .int n => toString n
  | .float x => writeDouble x
  | .list _ | .tuple _ => "[]"
  | .object _ => "\x7b\x7d"
  | .null | .str _ | .quoted _ _ => "null"

/-- The lines of a scalar that starts at a column; lines after the first are given
without their indentation. -/
def scalarLines (indent column : Nat) : Value → List String
  | .str s => ((Style.of s.toList).lines indent column s.toList).map String.ofList
  | v => [writeScalar v]

/-! ### Keys -/

/-- The length of the tag of a scalar, which counts for the length of a key. -/
def tagLength : Value → Nat
  | .float _ => 7
  | .bool _ | .null => 6
  | _ => 5

/-- The length that a key in front of a colon stays below. -/
def keyBound : Nat := 128

/-- Whether the character ends a line. -/
def endsLine (c : Char) : Bool := ['\n', '\u0085', '\u2028', '\u2029'].contains c

/-- The text of a key that may stand in front of a colon. -/
def simpleKey? (key : Value) : Option String :=
  let isShort (text : String) : Bool := text.length + tagLength key < keyBound
  match key with
  | .str s =>
    if !s.isEmpty && !s.toList.any endsLine && isShort s then
      some (String.ofList ((Style.of s.toList).text s.toList))
    else none
  | key => if isShort (writeScalar key) then some (writeScalar key) else none

/-! ### Blocks -/

/-- Puts one text before the first line and another before the others, but not before
an empty line. -/
def withMargin (first others : String) : List String → List String
  | [] => []
  | line :: lines =>
    (first ++ line) :: lines.map fun line => if line.isEmpty then line else others ++ line

/-- The lines of a value that follows a mark of one character and a blank, where
`block` holds its lines if it is a nonempty list or object. -/
def innerLines (column : Nat) (v : Value) (block : List String) : List String :=
  if block.isEmpty then scalarLines column column v else block

/-- How much further in than its field a list or an object starts: a list stands under
a key in front of a colon. -/
def innerOffset (name : Option String) : Value → Nat
  | .object _ => 2
  | _ => if name.isSome then 0 else 2

/-- The lines of a field whose first line starts with `mark`, where `block` holds the
lines of its value if it is a nonempty list or object. -/
def namedLines (column : Nat) (mark : String) (v : Value) (block : List String) :
    List String :=
  if block.isEmpty then
    withMargin (mark ++ " ") "  " (scalarLines (column + 2) (column + mark.length + 1) v)
  else
    match v with
    | .object _ => withMargin mark "  " ("" :: block)
    | _ => mark :: block

mutual

/-- The lines of a nonempty list or object, whose first character stands at
`column`; no lines for a scalar. -/
def blockLines (column : Nat) : Value → List String
  | .list vs | .tuple vs => elementLines column vs
  | .object fields => fieldLines column fields
  | _ => []

/-- The lines of the elements of a list. -/
def elementLines (column : Nat) : List Value → List String
  | [] => []
  | v :: vs =>
    withMargin "- " "  " (innerLines (column + 2) v (blockLines (column + 2) v)) ++
      elementLines column vs

/-- The lines of the fields of an object. -/
def fieldLines (column : Nat) : List (Value × Value) → List String
  | [] => []
  | (key, v) :: fields =>
    let name := simpleKey? key
    let block := blockLines (column + innerOffset name v) v
    let lines := match name with
      | some name => namedLines column (name ++ ":") v block
      | none =>
        withMargin "? " "  " (scalarLines (column + 2) (column + 2) key) ++
          withMargin ": " "  " (innerLines (column + 2) v block)
    lines ++ fieldLines column fields

end

/-- The YAML document of a value, if it is plain. -/
def write? (v : Value) : Option String :=
  if v.isPlain then
    let block := blockLines 0 v
    let lines := if block.isEmpty then scalarLines 2 0 v else block
    some (String.join (lines.map (· ++ "\n")))
  else none

end HornSearch.Yaml
