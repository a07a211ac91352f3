/-
HornSearch/Term.lean

First-order terms: variables, constants and function terms.

A constant is a value under strict equality, so the whole number one, the double
one and the truth value are three constants; inside a list or an object the loose
equality of values holds.  A function term is told by its functor and the number
of its arguments.

`Term.toValue` is the term as a piece of syntax, from which its text is taken.
-/
import HornSearch.Variable

namespace HornSearch

/-- A first-order term. -/
inductive Term where
  | var (v : Variable)
  | const (symbol : Value)
  | app (functor : Value) (args : List Term)
  deriving Inhabited

namespace Term

/-! ### Equality -/

/-- Whether two terms are one NaN as a constant. -/
def isSameNaN : Term → Term → Bool
  | .const a, .const b => a.isSameNaN b
  | _, _ => false

mutual

/-- Whether two terms are the same term. -/
def equals : Term → Term → Bool
  | .var v, .var w => v == w
  | .const a, .const b => a.sameSymbol b
  | .app f ts, .app g us => f.alike g && alikeList ts us
  | _, _ => false

/-- Whether two lists hold the same terms, one by one; a NaN is like itself. -/
def alikeList : List Term → List Term → Bool
  | [], [] => true
  | t :: ts, u :: us => (t.isSameNaN u || equals t u) && alikeList ts us
  | _, _ => false

end

instance : BEq Term := ⟨equals⟩

/-! ### Measures and variables -/

mutual

/-- Whether no variable occurs in the term. -/
def isGround : Term → Bool
  | .var _ => false
  | .const _ => true
  | .app _ ts => isGroundList ts

/-- Whether no variable occurs in any of the terms. -/
def isGroundList : List Term → Bool
  | [] => true
  | t :: ts => isGround t && isGroundList ts

end

mutual

/-- The occurrences of variables, from left to right. -/
def occurrences : Term → List Variable
  | .var v => [v]
  | .const _ => []
  | .app _ ts => occurrencesList ts

/-- The occurrences of variables in a list of terms, from left to right. -/
def occurrencesList : List Term → List Variable
  | [] => []
  | t :: ts => occurrences t ++ occurrencesList ts

end

mutual

/-- The height of the term as a tree: zero for a variable or a constant. -/
def height : Term → Nat
  | .var _ => 0
  | .const _ => 0
  | .app _ ts => heightList ts + 1

/-- The greatest height of a list of terms. -/
def heightList : List Term → Nat
  | [] => 0
  | t :: ts => max (height t) (heightList ts)

end

mutual

/-- Whether every label and symbol in the term can be part of a table's key. -/
def isHashable : Term → Bool
  | .var v => v.isHashable
  | .const a => a.isHashable
  | .app f ts => f.isHashable && isHashableList ts

/-- Whether every term of the list can be part of a table's key. -/
def isHashableList : List Term → Bool
  | [] => true
  | t :: ts => isHashable t && isHashableList ts

end

/-! ### Replacing variables -/

mutual

/-- Replaces every variable by a term that `f` gives for it, or stops at the
first one, from left to right, for which `f` fails. -/
def bindM {ε : Type} (f : Variable → Except ε Term) : Term → Except ε Term
  | .var v => f v
  | .const a => .ok (.const a)
  | .app g ts =>
    match bindMList f ts with
    | .ok us => .ok (.app g us)
    | .error e => .error e

/-- Replaces the variables of a list of terms. -/
def bindMList {ε : Type} (f : Variable → Except ε Term) : List Term → Except ε (List Term)
  | [] => .ok []
  | t :: ts =>
    match bindM f t with
    | .error e => .error e
    | .ok u =>
      match bindMList f ts with
      | .ok us => .ok (u :: us)
      | .error e => .error e

end

mutual

/-- Replaces every variable by a variable, one level deep. -/
def rename (f : Variable → Variable) : Term → Term
  | .var v => .var (f v)
  | .const a => .const a
  | .app g ts => .app g (renameList f ts)

/-- Replaces the variables of a list of terms by variables. -/
def renameList (f : Variable → Variable) : List Term → List Term
  | [] => []
  | t :: ts => rename f t :: renameList f ts

end

/-! ### Terms as values -/

mutual

/-- The term as a piece of syntax. -/
def toValue : Term → Value
  | .var v => v.toValue
  | .const a => .quoted .const [a]
  | .app f ts => .quoted .app (f :: toValues ts)

/-- The terms of a list as pieces of syntax. -/
def toValues : List Term → List Value
  | [] => []
  | t :: ts => toValue t :: toValues ts

end

/-- The text of a term. -/
def text (t : Term) : String := t.toValue.text

end Term

end HornSearch
