/-
HornSearch/Clause.lean

Literals and rules.  A literal is a predicate applied to terms; a rule is a Horn
clause, whose head follows from the conjunction of its body.  A stored clause is
one or the other.
-/
import HornSearch.Term

namespace HornSearch

/-- A predicate applied to terms. -/
structure Literal where
  predicate : Value
  args : List Term := []
  deriving Inhabited

/-- The Horn clause `head :- body`. -/
structure Rule where
  head : Literal
  body : List Literal := []
  deriving Inhabited

/-- A clause of a knowledge base. -/
inductive Clause where
  | fact (literal : Literal)
  | rule (rule : Rule)

namespace Literal

/-- Whether two literals are the same literal. -/
def equals (l m : Literal) : Bool :=
  l.predicate.alike m.predicate && Term.alikeList l.args m.args

instance : BEq Literal := ⟨equals⟩

/-- Whether no variable occurs in the literal. -/
def isGround (l : Literal) : Bool := Term.isGroundList l.args

/-- The occurrences of variables, from left to right. -/
def occurrences (l : Literal) : List Variable := Term.occurrencesList l.args

/-- The greatest height of an argument. -/
def height (l : Literal) : Nat := Term.heightList l.args

/-- Whether the literal can be a key of a table. -/
def isHashable (l : Literal) : Bool := l.predicate.isHashable && Term.isHashableList l.args

/-- Replaces the variables by terms. -/
def bindM {ε : Type} (f : Variable → Except ε Term) (l : Literal) : Except ε Literal :=
  match Term.bindMList f l.args with
  | .ok args => .ok ⟨l.predicate, args⟩
  | .error e => .error e

/-- Replaces the variables by variables. -/
def rename (f : Variable → Variable) (l : Literal) : Literal :=
  ⟨l.predicate, Term.renameList f l.args⟩

/-- The literal as a piece of syntax. -/
def toValue (l : Literal) : Value := .quoted .literal (l.predicate :: Term.toValues l.args)

/-- The text of a literal that has one.  Without arguments it is the predicate itself,
and only a string is a text. -/
def text? (l : Literal) : Except TextFlaw String := l.toValue.text?

end Literal

namespace Rule

/-- Whether two rules are the same rule. -/
def equals (r s : Rule) : Bool := r.head == s.head && r.body == s.body

instance : BEq Rule := ⟨equals⟩

/-- The occurrences of variables, from left to right. -/
def occurrences (r : Rule) : List Variable :=
  r.head.occurrences ++ r.body.flatMap Literal.occurrences

/-- Whether the rule can be a key of a table. -/
def isHashable (r : Rule) : Bool := r.head.isHashable && r.body.all Literal.isHashable

/-- Replaces the variables by variables. -/
def rename (f : Variable → Variable) (r : Rule) : Rule :=
  ⟨r.head.rename f, r.body.map (Literal.rename f)⟩

/-- The rule as a piece of syntax. -/
def toValue (r : Rule) : Value := .quoted .rule (r.head.toValue :: r.body.map Literal.toValue)

/-- The text of a rule that has one; it ends with a full stop. -/
def text? (r : Rule) : Except TextFlaw String := r.toValue.text?

end Rule

namespace Clause

/-- The text of a clause that has one. -/
def text? : Clause → Except TextFlaw String
  | .fact l => l.text?
  | .rule r => r.text?

/-- The literal of a fact. -/
def fact? : Clause → Option Literal
  | .fact l => some l
  | .rule _ => none

/-- The rule of a rule clause. -/
def rule? : Clause → Option Rule
  | .fact _ => none
  | .rule r => some r

end Clause

end HornSearch
