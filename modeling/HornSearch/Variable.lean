/-
HornSearch/Variable.lean

Logical variables.  A variable has a name and a serial number; variables that a
user writes have serial zero, and each fresh copy of a rule has serials of its
own.  A document may name a variable by any value, so names and serials are plain
values, compared loosely; `Variable.isRegular` marks the usual ones, a string
with a whole number, for which equality is identity.
-/
import HornSearch.Value.Text

namespace HornSearch

/-- A logical variable. -/
structure Variable where
  name : Value
  serial : Value := .int 0
  deriving Inhabited

namespace Variable

/-- Whether two variables are the same variable. -/
def equals (v w : Variable) : Bool := v.serial.alike w.serial && v.name.alike w.name

instance : BEq Variable := ⟨equals⟩

/-- Whether the name is a string and the serial a whole number. -/
def isRegular (v : Variable) : Bool :=
  match v.name, v.serial with
  | .str _, .int _ => true
  | _, _ => false

/-- Regular variables are equal only if they are the same variable. -/
theorem beq_iff_eq_of_isRegular {v w : Variable} (hv : v.isRegular = true)
    (hw : w.isRegular = true) : (v == w) = true ↔ v = w := by
  obtain ⟨name, serial⟩ := v
  obtain ⟨name', serial'⟩ := w
  cases name <;> cases serial <;> simp [isRegular] at hv
  cases name' <;> cases serial' <;> simp [isRegular] at hw
  show equals _ _ = true ↔ _
  simp [equals, and_comm]

/-- The variable as a piece of syntax. -/
def toValue (v : Variable) : Value := .quoted .var [v.name, v.serial]

/-- Whether the variable can be a key of a table. -/
def isHashable (v : Variable) : Bool := v.name.isHashable && v.serial.isHashable

/-- The text of a variable: its name, and its serial unless that is zero. -/
def text (v : Variable) : String := v.toValue.text

theorem text_of_isRegular (name : String) (serial : Int) :
    text ⟨.str name, .int serial⟩ =
      if serial = 0 then "?" ++ name else "?" ++ name ++ "_" ++ toString serial := by
  by_cases h : serial = 0 <;>
    simp [text, toValue, Value.text, Value.quotedText, Value.bareTexts, Value.isTruthy,
      Text.ofShape, Text.variableText, h]

/-! ### Sets of variables

A set is a list without repetition, in order of first occurrence. -/

/-- Adds a variable to a set. -/
def insertNew (vs : List Variable) (v : Variable) : List Variable :=
  if vs.contains v then vs else vs ++ [v]

/-- The set of the variables of a list. -/
def distinct (vs : List Variable) : List Variable := vs.foldl insertNew []

/-! ### Order -/

/-- Whether two variables have an order: by name, then by serial. -/
def comparable (v w : Variable) : Bool :=
  if v.name.alike w.name then
    v.serial.alike w.serial || v.serial.comparable w.serial
  else v.name.comparable w.name

/-- The strict order by name, then by serial. -/
def less (v w : Variable) : Bool :=
  if v.name.alike w.name then !v.serial.alike w.serial && v.serial.less w.serial
  else v.name.less w.name

/-- Whether any two variables of a list have an order. -/
def allComparable : List Variable → Bool
  | [] => true
  | v :: vs => vs.all v.comparable && allComparable vs

/-- The variables in rising order, if any two of them have one. -/
def sorted? (vs : List Variable) : Option (List Variable) :=
  if allComparable vs then some (vs.mergeSort fun v w => !w.less v) else none

end Variable

end HornSearch
