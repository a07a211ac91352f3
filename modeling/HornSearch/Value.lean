/-
HornSearch/Value.lean

The plain values that constants carry, that documents are made of and that odd
operands are: null, truth values, whole numbers, doubles, strings, lists, tuples
and objects.  An object keeps its fields in the order in which they were first
set; its keys are values too, usually strings and never lists or objects.

A constant may also carry a piece of syntax, which makes it a value here: quoted
terms, literals and rules keep their shape and have their parts as values.  What
is quoted is data; variables in it do not count as variables of the constant.

Two equalities matter.  The loose one, `Value.equals`, compares numbers of any
kind, truth values among them, by the exact number they stand for, looks inside
lists and objects, and ignores the order of fields.  The strict one,
`Value.sameSymbol`, also asks the two values to be of one kind at the top; it is
the equality of constants.  NaN equals nothing under either.  Parts of a larger
value are compared by `Value.alike`, which is loose equality or being the very
same NaN, so a list with a NaN in it does equal itself.
-/
import HornSearch.Double

namespace HornSearch

/-- The shapes of quoted syntax. -/
inductive Shape where
  /-- A variable: its name and its serial. -/
  | var
  /-- A constant: its symbol. -/
  | const
  /-- A function term: its functor and its arguments. -/
  | app
  /-- A literal: its predicate and its arguments. -/
  | literal
  /-- A rule: its head and the literals of its body. -/
  | rule
  deriving DecidableEq

/-- A plain value, or a piece of syntax as one. -/
inductive Value where
  | null
  | bool (b : Bool)
  | int (n : Int)
  | float (x : Double)
  | str (s : String)
  | list (elements : List Value)
  | tuple (elements : List Value)
  | object (fields : List (Value × Value))
  | quoted (shape : Shape) (parts : List Value)
  deriving Inhabited

/-- The kind of a piece of syntax, as messages name it. -/
def Shape.kind : Shape → String
  | .var => "Variable"
  | .const => "Constant"
  | .app => "Function"
  | .literal => "Literal"
  | .rule => "Rule"

namespace Value

/-- The kind of a value, as messages name it. -/
def kind : Value → String
  | .null => "NoneType"
  | .bool _ => "bool"
  | .int _ => "int"
  | .float _ => "float"
  | .str _ => "str"
  | .list _ => "list"
  | .tuple _ => "tuple"
  | .object _ => "dict"
  | .quoted shape _ => shape.kind

/-- Whether two values are of one kind. -/
def sameKind : Value → Value → Bool
  | .null, .null | .bool _, .bool _ | .int _, .int _ | .float _, .float _ | .str _, .str _
  | .list _, .list _ | .tuple _, .tuple _ | .object _, .object _ => true
  | .quoted s _, .quoted t _ => s == t
  | _, _ => false

/-! ### Numbers -/

/-- Whether the value is a number; truth values are. -/
def isNumber : Value → Bool
  | .bool _ | .int _ | .float _ => true
  | _ => false

/-- The exact number that a number stands for; NaN stands for none. -/
def quantity? : Value → Option Quantity
  | .bool b => some (.ofInt b.toInt)
  | .int n => some (.ofInt n)
  | .float x => x.quantity?
  | _ => none

/-- Whether two numbers stand for one exact number. -/
def sameQuantity (a b : Value) : Bool :=
  match a.quantity?, b.quantity? with
  | some p, some q => p == q
  | _, _ => false

/-- Whether two values are one NaN, alone or as the symbol of a constant. -/
def isSameNaN : Value → Value → Bool
  | .float x, .float y => x.isSameNaN y
  | .quoted .const [.float x], .quoted .const [.float y] => x.isSameNaN y
  | _, _ => false

/-! ### Objects -/

/-- Whether two keys are one key of an object. -/
def sameKey : Value → Value → Bool
  | .null, .null => true
  | .str s, .str t => s == t
  | a, b => a.sameQuantity b || a.isSameNaN b

/-- The value under a key. -/
def get? (key : Value) (fields : List (Value × Value)) : Option Value :=
  (fields.find? (·.1.sameKey key)).map (·.2)

/-- The value of a field, by its name. -/
def field? (name : String) (fields : List (Value × Value)) : Option Value :=
  get? (.str name) fields

/-- Sets the value under a key: in its place if the key is there, else at the end. -/
def set (fields : List (Value × Value)) (key value : Value) : List (Value × Value) :=
  if fields.any (·.1.sameKey key) then
    fields.map fun f => if f.1.sameKey key then (f.1, value) else f
  else fields ++ [(key, value)]

/-- The object of a list of fields, in which a later field of the same key
replaces the value of an earlier one. -/
def ofFields (fields : List (Value × Value)) : Value :=
  .object (fields.foldl (fun done f => set done f.1 f.2) [])

/-- The object with fields of the given names, which are distinct. -/
def record (fields : List (String × Value)) : Value :=
  .object (fields.map fun f => (.str f.1, f.2))

/-! ### Equality -/

mutual

/-- Loose equality. -/
def equals : Value → Value → Bool
  | .null, .null => true
  | .int m, .int n => m == n
  | .str s, .str t => s == t
  | .list xs, .list ys => alikeList xs ys
  | .tuple xs, .tuple ys => alikeList xs ys
  | .object fs, .object gs => fs.length == gs.length && alikeFields fs gs
  | .quoted .const [a], .quoted .const [b] => a.sameKind b && equals a b
  | .quoted s xs, .quoted t ys => s == t && alikeList xs ys
  | .bool b, y => sameQuantity (.bool b) y
  | .int n, y => sameQuantity (.int n) y
  | .float x, y => sameQuantity (.float x) y
  | _, _ => false

/-- Whether two lists are alike, element by element. -/
def alikeList : List Value → List Value → Bool
  | [], [] => true
  | x :: xs, y :: ys => (x.isSameNaN y || equals x y) && alikeList xs ys
  | _, _ => false

/-- Whether each field has one like it among the fields of the other object. -/
def alikeFields : List (Value × Value) → List (Value × Value) → Bool
  | [], _ => true
  | (key, x) :: fs, gs =>
    (match get? key gs with
      | some y => x.isSameNaN y || equals x y
      | none => false) && alikeFields fs gs

end

/-- Equality of the parts of larger values: loose equality, and a NaN is like
itself. -/
def alike (a b : Value) : Bool := a.isSameNaN b || a.equals b

/-- Strict equality: of one kind, and loosely equal. -/
def sameSymbol (a b : Value) : Bool := a.sameKind b && a.equals b

@[simp] theorem equals_str (s t : String) : equals (.str s) (.str t) = (s == t) := by
  simp [equals]

@[simp] theorem equals_int (m n : Int) : equals (.int m) (.int n) = (m == n) := by
  simp [equals]

@[simp] theorem alike_str (s t : String) : alike (.str s) (.str t) = (s == t) := by
  simp [alike, isSameNaN]

@[simp] theorem alike_int (m n : Int) : alike (.int m) (.int n) = (m == n) := by
  simp [alike, isSameNaN]

/-! ### Other properties -/

mutual

/-- Whether the value can be a key of a table: lists and objects cannot, nor can
what has one among its parts. -/
def isHashable : Value → Bool
  | .list _ | .object _ => false
  | .tuple xs | .quoted _ xs => areHashable xs
  | _ => true

/-- Whether every value of the list can be a key of a table. -/
def areHashable : List Value → Bool
  | [] => true
  | x :: xs => isHashable x && areHashable xs

end

/-- Whether the value counts as true: null, zero and empty values do not. -/
def isTruthy : Value → Bool
  | .null => false
  | .bool b => b
  | .int n => n != 0
  | .float x => x.quantity? != some (.exact 0)
  | .str s => !s.isEmpty
  | .list xs => !xs.isEmpty
  | .tuple xs => !xs.isEmpty
  | .object fs => !fs.isEmpty
  | .quoted _ _ => true

mutual

/-- Whether no quoted syntax is in the value. -/
def isPlain : Value → Bool
  | .list xs | .tuple xs => arePlain xs
  | .object fs => arePlainFields fs
  | .quoted _ _ => false
  | _ => true

/-- Whether no quoted syntax is in any of the values. -/
def arePlain : List Value → Bool
  | [] => true
  | x :: xs => isPlain x && arePlain xs

/-- Whether no quoted syntax is in any of the fields. -/
def arePlainFields : List (Value × Value) → Bool
  | [] => true
  | (key, x) :: fs => isPlain key && isPlain x && arePlainFields fs

end

/-- Whether two values have an order: two numbers, or two strings. -/
def comparable : Value → Value → Bool
  | .str _, .str _ => true
  | a, b => a.isNumber && b.isNumber

/-- The strict order of comparable values; strings go by code point. -/
def less : Value → Value → Bool
  | .str s, .str t => decide (s < t)
  | a, b =>
    match a.quantity?, b.quantity? with
    | some p, some q => p.lt q
    | _, _ => false

/-- Whether `a` is a number not below the number `b`; NaN is no such number. -/
def isAtLeast (a b : Value) : Bool :=
  match a.quantity?, b.quantity? with
  | some p, some q => !p.lt q
  | _, _ => false

/-- The value after a number, of the same kind, a truth value counting as a whole
number; other values have none. -/
def successor? : Value → Option Value
  | .bool b => some (.int (b.toInt + 1))
  | .int n => some (.int (n + 1))
  | .float x => some (.float x.successor)
  | _ => none

/-- The string of a string value. -/
def string? : Value → Option String
  | .str s => some s
  | _ => none

end Value

end HornSearch
