/-
HornSearch/Value/Text.lean

The text of a value.  At the top a string is shown as it is; inside lists, tuples
and objects it is quoted.  `Value.quotedText` quotes it at the top too.  Quoted
syntax is shown as it is written, wherever it stands.

Two things can be in the way of a text (`Value.flaws`): a whole number that is too
long to be written, and a literal without arguments whose predicate is no string,
since such a literal is written as its predicate.  `Value.quotedText` and
`Value.text` put a text together whatever is in its way; `Value.text?` and
`Value.bareText?` only give it if nothing is, and else the flaw that is come upon
first.
-/
import HornSearch.Double.Shortest
import HornSearch.Numeral
import HornSearch.Text.Quoted
import HornSearch.Value

namespace HornSearch

namespace Text

/-- Texts with commas between them. -/
def commas (texts : List String) : String := ", ".intercalate texts

/-- A symbol applied to arguments. -/
def applied (symbol : String) (args : List String) : String :=
  symbol ++ "(" ++ commas args ++ ")"

/-- A variable by the texts of its name and, unless it is zero, its serial. -/
def variableText (name : String) (serial : Option String) : String :=
  match serial with
  | some serial => "?" ++ name ++ "_" ++ serial
  | none => "?" ++ name

/-- A rule by the texts of its head and of the literals of its body. -/
def ruleText (head : String) (body : List String) : String :=
  if body.isEmpty then head ++ "." else head ++ " :- " ++ commas body ++ "."

/-- A list by the texts of its elements. -/
def listText (elements : List String) : String := "[" ++ commas elements ++ "]"

/-- A tuple by the texts of its elements; a single one has a comma after it. -/
def tupleText : List String → String
  | [x] => "(" ++ x ++ ",)"
  | xs => "(" ++ commas xs ++ ")"

/-- A piece of syntax by the texts of its parts.  The serial of a variable is shown
only if that is asked for. -/
def ofShape (showsSerial : Bool) : Shape → List String → String
  | .var, name :: serial => variableText name (if showsSerial then serial.head? else none)
  | .const, symbol :: _ => symbol
  | .literal, [predicate] => predicate
  | .app, symbol :: args | .literal, symbol :: args => applied symbol args
  | .rule, head :: body => ruleText head body
  | _, [] => ""

end Text

namespace Value

mutual

/-- The text of a value in which every string is quoted. -/
def quotedText : Value → String
  | .null => "None"
  | .bool true => "True"
  | .bool false => "False"
  | .int n => toString n
  | .float x => x.text
  | .str s => Text.quoted s
  | .list xs => Text.listText (quotedTexts xs)
  | .tuple xs => Text.tupleText (quotedTexts xs)
  | .object fs => "\x7b" ++ Text.commas (fieldTexts fs) ++ "\x7d"
  | .quoted shape parts =>
    -- a serial of zero is left out
    Text.ofShape (parts.getLast?.elim false isTruthy) shape (bareTexts parts)

/-- The texts of the elements of a list. -/
def quotedTexts : List Value → List String
  | [] => []
  | x :: xs => quotedText x :: quotedTexts xs

/-- The texts of the parts of a piece of syntax. -/
def bareTexts : List Value → List String
  | [] => []
  | .str s :: xs => s :: bareTexts xs
  | x :: xs => quotedText x :: bareTexts xs

/-- The texts of the fields of an object. -/
def fieldTexts : List (Value × Value) → List String
  | [] => []
  | (key, x) :: fs => (quotedText key ++ ": " ++ quotedText x) :: fieldTexts fs

end

/-- The text of a value. -/
def text : Value → String
  | .str s => s
  | v => v.quotedText

end Value

/-- Why a value has no text. -/
inductive TextFlaw where
  /-- A whole number is too long to be written. -/
  | tooLong
  /-- A literal without arguments has a predicate that is no string. -/
  | notString
  deriving DecidableEq

namespace Value

mutual

/-- What is in the way of a text, in the order in which the text is put together. -/
def flaws : Value → List TextFlaw
  | .int n => if Numeral.isWritten n then [] else [.tooLong]
  | .list xs | .tuple xs => flawsOfAll xs
  | .object fs => flawsOfFields fs
  | .quoted .literal [predicate] => if predicate.string?.isSome then [] else [.notString]
  | .quoted .app parts | .quoted .literal parts | .quoted .rule parts => flawsHeadLast parts
  | .quoted _ parts => flawsOfAll parts
  | _ => []

/-- What is in the way of the texts of a list. -/
def flawsOfAll : List Value → List TextFlaw
  | [] => []
  | x :: xs => flaws x ++ flawsOfAll xs

/-- What is in the way where the first text of a list comes after the others. -/
def flawsHeadLast : List Value → List TextFlaw
  | [] => []
  | x :: xs => flawsOfAll xs ++ flaws x

/-- What is in the way of the texts of keys and values. -/
def flawsOfFields : List (Value × Value) → List TextFlaw
  | [] => []
  | (key, x) :: fs => flaws key ++ flaws x ++ flawsOfFields fs

end

/-- Whether nothing is in the way of a text. -/
def hasText (v : Value) : Bool := v.flaws.isEmpty

/-- A text that is put together for the value, if nothing is in its way. -/
def shownAs (v : Value) (text : String) : Except TextFlaw String :=
  match v.flaws with
  | [] => .ok text
  | flaw :: _ => .error flaw

/-- The text of a value that has one, with quotes around a string. -/
def text? (v : Value) : Except TextFlaw String := v.shownAs v.quotedText

/-- The text of a value that has one, a string as it is. -/
def bareText? (v : Value) : Except TextFlaw String := v.shownAs v.text

end Value

end HornSearch
