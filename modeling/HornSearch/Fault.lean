/-
HornSearch/Fault.lean

The ways in which an operation can fail.  A failed proof or unification is not
among them: it is an ordinary answer.  A fault is a cause; `Fault.message?` words
the causes that have a wording.
-/
import HornSearch.Clause

namespace HornSearch

/-- What is wrong with the shape of a knowledge base document. -/
inductive Malformation where
  /-- A field that has to be there is not. -/
  | missingField (name : String)
  /-- Fields were asked of a value that is not an object. -/
  | noFields (kind : String)
  /-- Elements were asked of a value that has none. -/
  | notIterable (kind : String)
  /-- A field was asked of a value without parts. -/
  | notSubscriptable (kind : String)
  /-- A field was asked of a string. -/
  | stringPosition
  /-- A field was asked of a list. -/
  | listPosition
  deriving DecidableEq

/-- What is wrong with a setting. -/
inductive Complaint where
  /-- A string is no whole number. -/
  | unreadableNumber
  /-- A number has a fraction. -/
  | fractional
  /-- A number is infinite, or none. -/
  | notFinite
  /-- A number is larger than is read. -/
  | tooLarge
  /-- The value is no number. -/
  | notNumber
  /-- The number is below one. -/
  | tooSmall
  /-- A number or a string is no truth value. -/
  | unreadableFlag
  /-- The value is no truth value. -/
  | notFlag
  /-- The settings are no object. -/
  | notObject
  deriving DecidableEq

/-- The cause of a failed operation. -/
inductive Fault where
  /-- The computation has no end. -/
  | endless
  /-- The proof nests deeper than the settings allow. -/
  | depthLimit (limit : Nat) (goal : Literal)
  /-- A variable was bound a second time. -/
  | alreadyBound (key value : String)
  /-- The operands are of kinds that do not unify. -/
  | cannotUnify (left right : String)
  /-- The item is of a kind without variables to replace. -/
  | cannotSubstitute (kind : String)
  /-- The item is not a term. -/
  | notTerm (text : String)
  /-- A fact is not a literal. -/
  | factNotLiteral (text : String)
  /-- A fact is not ground. -/
  | factNotGround (text : String)
  /-- A document is not an object. -/
  | documentNotObject (kind : String)
  /-- A term document has an unknown tag. -/
  | unknownTag (text : String)
  /-- An item without a document form. -/
  | unknownTerm (kind : String)
  /-- A document is malformed. -/
  | malformed (cause : Malformation)
  /-- The shape of a part of a document is wrong. -/
  | shape (cause : Malformation)
  /-- A file is not there. -/
  | noSuchFile
  /-- A text is not JSON. -/
  | jsonSyntax
  /-- A text is not YAML, or a value has no YAML form. -/
  | yamlSyntax
  /-- A numeral in a text has no value, or a number has no numeral. -/
  | numeral (flaw : NumeralFlaw)
  /-- The serials of fresh variables would start too low. -/
  | startTooLow (text : String)
  /-- Settings are refused, each complaint with the setting it is about. -/
  | refusedSettings (complaints : List (Option String × Complaint))
  /-- A value is of a kind that the operation does not take. -/
  | wrongKind
  /-- An item has no such property. -/
  | noProperty
  /-- A table has no such key. -/
  | missingKey
  deriving Inhabited

namespace Malformation

/-- The class of the malformation and its wording, as messages show them. -/
def parts : Malformation → String × String
  | .missingField name => ("KeyError", name)
  | .noFields kind => ("AttributeError", "'" ++ kind ++ "' object has no attribute 'get'")
  | .notIterable kind => ("TypeError", "'" ++ kind ++ "' object is not iterable")
  | .notSubscriptable kind => ("TypeError", "'" ++ kind ++ "' object is not subscriptable")
  | .stringPosition => ("TypeError", "string indices must be integers, not 'str'")
  | .listPosition => ("TypeError", "list indices must be integers or slices, not str")

/-- The text of a malformation. -/
def text (m : Malformation) : String := m.parts.1 ++ "(" ++ Text.quoted m.parts.2 ++ ")"

end Malformation

/-- The text of a flaw in a numeral. -/
def NumeralFlaw.text : NumeralFlaw → String
  | .noDigits base => s!"invalid literal for int() with base {base}: ''"
  | .tooManyDigits count =>
    s!"Exceeds the limit ({Numeral.mostDigits} digits) for integer string conversion: " ++
      s!"value has {count} digits; use sys.set_int_max_str_digits() to increase the limit"
  | .tooLong =>
    s!"Exceeds the limit ({Numeral.mostDigits} digits) for integer string conversion; " ++
      "use sys.set_int_max_str_digits() to increase the limit"

/-- The wording of the fault that a goal is deeper than the limit; limit and goal have to
have texts. -/
def depthMessage (limit : Nat) (goal : Literal) : Except TextFlaw String := do
  let limit ← (Value.int limit).text?
  let goal ← goal.text?
  return "proof depth limit " ++ limit ++ " exceeded at goal " ++ goal

namespace Fault

/-- The wording of a fault, if it has one. -/
def message? : Fault → Option String
  | .depthLimit limit goal => (depthMessage limit goal).toOption
  | .alreadyBound key value => some (key ++ " is already bound to " ++ value)
  | .cannotUnify left right => some ("Cannot unify " ++ left ++ " with " ++ right)
  | .cannotSubstitute kind => some ("Cannot substitute into " ++ kind)
  | .notTerm text => some ("Not a term: " ++ text)
  | .factNotLiteral text => some ("Fact must be a Literal, got: " ++ text)
  | .factNotGround text => some ("Fact must be ground, got: " ++ text)
  | .documentNotObject kind => some ("Knowledge base document must be a mapping, got " ++ kind)
  | .unknownTag text => some ("Unknown term type: " ++ text)
  | .unknownTerm kind => some ("Unknown term type: <class '" ++ kind ++ "'>")
  | .malformed cause => some ("Malformed knowledge base document: " ++ cause.text)
  | .numeral flaw => some flaw.text
  | .startTooLow text => some ("fresh variable serials start at 1 or above, got " ++ text)
  | _ => none

end Fault

/-- The result of an operation that can fail. -/
abbrev Checked := Except Fault

/-- The fault of asking for a text that is not there. -/
def TextFlaw.fault : TextFlaw → Fault
  | .tooLong => .numeral .tooLong
  | .notString => .wrongKind

/-- A text, or the fault of asking for one that is not there. -/
def textOrFault : Except TextFlaw String → Checked String
  | .ok text => .ok text
  | .error flaw => .error flaw.fault

/-- The value that `read` gives for the text of a file, if the file is there. -/
def valueOfText (read : String → Reading Value) (badSyntax : Fault) : Option String → Checked Value
  | none => .error .noSuchFile
  | some text =>
    match read text with
    | .ok v => .ok v
    | .error .ungrammatical => .error badSyntax
    | .error (.numeral flaw) => .error (.numeral flaw)

end HornSearch
