/-
HornSearch/Item/Classes.lean

Equality of items, and items as keys of a table: which items can be keys, and which
items of a list are the same key.
-/
import HornSearch.Fault
import HornSearch.Item

namespace HornSearch.Item

/-! ### Equality -/

/-- Whether two items are one NaN, as a plain value or as a constant. -/
def isSameNaN : Item → Item → Bool
  | .term t, .term u => t.isSameNaN u
  | .raw a, .raw b => a.isSameNaN b
  | _, _ => false

mutual

/-- Whether two items are equal; items of different kinds are not, plain values
are compared loosely. -/
def equals : Item → Item → Bool
  | .term t, .term u => t == u
  | .literal l, .literal m => l == m
  | .rule r, .rule s => r == s
  | .list xs, .list ys => alikeList xs ys
  | .tuple xs, .tuple ys => alikeList xs ys
  | .raw a, .raw b => a.equals b
  | _, _ => false

/-- Whether two lists hold items alike, one by one. -/
def alikeList : List Item → List Item → Bool
  | [], [] => true
  | x :: xs, y :: ys => (x.isSameNaN y || equals x y) && alikeList xs ys
  | _, _ => false

end

instance : BEq Item := ⟨equals⟩

/-- Equality of the parts of larger things: equal, or the very same NaN. -/
def alike (i j : Item) : Bool := i.isSameNaN j || i == j

/-! ### Keys -/

mutual

/-- Whether the item can be a key of a table. -/
def isHashable : Item → Bool
  | .term t => t.isHashable
  | .literal l => l.isHashable
  | .rule r => r.isHashable
  | .list _ => false
  | .tuple xs => areHashable xs
  | .raw v => v.isHashable

/-- Whether every item of the list can be a key of a table. -/
def areHashable : List Item → Bool
  | [] => true
  | x :: xs => isHashable x && areHashable xs

end

/-- For each item of a list the position of the first item that is the same key; an
item that is none but its own has its own position. -/
def classes (items : List Item) : Checked (List Nat) :=
  if items.all isHashable then
    .ok (items.mapIdx fun n i => ((items.take n).findIdx? (·.alike i)).getD n)
  else .error .wrongKind

end HornSearch.Item
