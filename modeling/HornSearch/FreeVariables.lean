/-
HornSearch/FreeVariables.lean

The sets of variables that occur in items.

A term, a literal and a rule have the variables in them.  Any other item is a
sequence of items, if it is one: a list, a tuple, a plain string or list, or the
field names of a plain object; its variables are those of its parts, each of which
has to be a term, a literal or a rule.
-/
import HornSearch.Fault
import HornSearch.Item

namespace HornSearch.Item

/-- The variables of a term, a literal or a rule, if they can be kept in a set. -/
def checkedVariables (i : Item) : Checked (List Variable) :=
  match i.occurrences? with
  | none => .error .noProperty
  | some vs => if vs.all Variable.isHashable then .ok (Variable.distinct vs) else .error .wrongKind

/-- The items of a sequence. -/
def parts : Item → Checked (List Item)
  | .list xs => .ok xs
  | .tuple xs => .ok xs
  | .raw (.str s) => .ok (s.toList.map fun c => .raw (.str c.toString))
  | .raw (.list vs) => .ok (vs.map .raw)
  | .raw (.object fields) => .ok (fields.map fun f => .raw f.1)
  | _ => .error .wrongKind

/-- The variables of several items. -/
def variablesOf (items : List Item) : Checked (List Variable) := do
  return Variable.distinct (← items.mapM checkedVariables).flatten

/-- The variables of an item or, if it is a sequence, of its parts. -/
def freeVariables (i : Item) : Checked (List Variable) :=
  match i.occurrences? with
  | some _ => i.checkedVariables
  | none => do variablesOf (← i.parts)

/-- A set of variables in rising order. -/
def inOrder (vs : List Variable) : Checked (List Variable) :=
  match Variable.sorted? vs with
  | some vs => .ok vs
  | none => .error .wrongKind

/-- The number of arguments of a function term or a literal. -/
def arity? : Item → Option Nat
  | .term (.app _ ts) => some ts.length
  | .literal l => some l.args.length
  | _ => none

/-- Whether a term or a literal is ground; of other items it is not asked. -/
def isGround? : Item → Option Bool
  | .term t => some t.isGround
  | .literal l => some l.isGround
  | _ => none

end HornSearch.Item
