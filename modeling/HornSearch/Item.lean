/-
HornSearch/Item.lean

Items are what an operation may be handed: a term, a literal, a rule, a list or a
tuple of items, or a plain value that is none of these.  Operations accept the
kinds they are made for and answer the rest with a fault.

Where an argument of a function term or a literal is wanted, `Item.toTerm` makes
one of any item: what is no term becomes a constant with the item as its symbol.
-/
import HornSearch.Clause

namespace HornSearch

/-- Anything that an operation may be handed. -/
inductive Item where
  | term (t : Term)
  | literal (l : Literal)
  | rule (r : Rule)
  | list (items : List Item)
  | tuple (items : List Item)
  | raw (v : Value)
  deriving Inhabited

namespace Item

/-- The kind of an item, as messages name it. -/
def kind : Item → String
  | .term (.var _) => "Variable"
  | .term (.const _) => "Constant"
  | .term (.app _ _) => "Function"
  | .literal _ => "Literal"
  | .rule _ => "Rule"
  | .list _ => "list"
  | .tuple _ => "tuple"
  | .raw v => v.kind

/-- A variable as an item. -/
def ofVariable (v : Variable) : Item := .term (.var v)

/-! ### Items as values -/

mutual

/-- The item as a value, syntax being quoted. -/
def toValue : Item → Value
  | .term t => t.toValue
  | .literal l => l.toValue
  | .rule r => r.toValue
  | .list xs => .list (toValues xs)
  | .tuple xs => .tuple (toValues xs)
  | .raw v => v

/-- The items of a list as values. -/
def toValues : List Item → List Value
  | [] => []
  | x :: xs => toValue x :: toValues xs

end

/-- The item as an argument of a function term or a literal. -/
def toTerm : Item → Term
  | .term t => t
  | i => .const i.toValue

/-- The text of an item that has one, in which plain strings are quoted. -/
def text? (i : Item) : Except TextFlaw String := i.toValue.text?

/-! ### Parts -/

/-- The variable of an item that is one. -/
def var? : Item → Option Variable
  | .term (.var v) => some v
  | _ => none

/-- The occurrences of variables in a term, a literal or a rule; the other kinds
hold none of their own. -/
def occurrences? : Item → Option (List Variable)
  | .term t => some t.occurrences
  | .literal l => some l.occurrences
  | .rule r => some r.occurrences
  | _ => none

end Item

end HornSearch
