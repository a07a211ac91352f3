/-
HornSearch/KnowledgeBase.lean

Knowledge bases: ground facts and rules in the order in which they were added.

The order matters, since search tries facts and rules as they stand.  Three lists are
kept: the facts, the rules, and both of them together as clauses.  Nothing but the
calls that add to them keeps the three in step.

A call changes the lists one after the other, and they stay as it leaves them even if
it fails (`Storing`).
-/
import HornSearch.Unification

namespace HornSearch

/-- An ordered collection of facts and rules. -/
structure KnowledgeBase where
  facts : List Literal := []
  rules : List Rule := []
  /-- Facts and rules together. -/
  clauses : List Clause := []
  deriving Inhabited

/-- A call that may change the lists of a knowledge base, and may fail on the way. -/
abbrev Storing := ExceptT Fault (StateM KnowledgeBase)

namespace Storing

/-- The result of an operation that can fail and leaves the lists alone. -/
def ofChecked {α : Type} (result : Checked α) : Storing α := ExceptT.mk (pure result)

/-- Appends a ground fact. -/
def fact : Item → Storing Unit
  | .literal l => do
    if !l.isGround then
      throw (.factNotGround (← ofChecked (textOrFault l.text?)))
    modify fun kb => { kb with facts := kb.facts ++ [l] }
    modify fun kb => { kb with clauses := kb.clauses ++ [.fact l] }
  | i => do throw (.factNotLiteral (← ofChecked (textOrFault i.text?)))

/-- Appends a rule. -/
def rule (r : Rule) : Storing Unit := do
  modify fun kb => { kb with rules := kb.rules ++ [r] }
  modify fun kb => { kb with clauses := kb.clauses ++ [.rule r] }

/-- Appends a rule or a ground fact. -/
def clause : Item → Storing Unit
  | .rule r => rule r
  | i => fact i

/-- How the call ends on a knowledge base, and the knowledge base that it leaves. -/
def perform (call : Storing Unit) (kb : KnowledgeBase) : Checked Unit × KnowledgeBase :=
  (call.run.run kb).run

end Storing

namespace KnowledgeBase

/-- The knowledge base without clauses. -/
def empty : KnowledgeBase := {}

/-- The number of facts. -/
def factCount (kb : KnowledgeBase) : Nat := kb.facts.length

/-- The number of rules. -/
def ruleCount (kb : KnowledgeBase) : Nat := kb.rules.length

/-- The number of clauses. -/
def size (kb : KnowledgeBase) : Nat := kb.clauses.length

/-! ### Adding clauses -/

/-- The knowledge base after a call, if the call succeeds. -/
def after (kb : KnowledgeBase) (call : Storing Unit) : Checked KnowledgeBase :=
  let (result, kb) := call.perform kb
  result.map fun _ => kb

/-- Adds a ground fact at the end. -/
def addFact (kb : KnowledgeBase) (i : Item) : Checked KnowledgeBase := kb.after (.fact i)

/-- Adds a rule at the end. -/
def addRule (kb : KnowledgeBase) (r : Rule) : KnowledgeBase := ((Storing.rule r).perform kb).2

/-- Adds a rule or a ground fact at the end. -/
def addClause (kb : KnowledgeBase) (i : Item) : Checked KnowledgeBase := kb.after (.clause i)

/-- The knowledge base of some facts and then some clauses. -/
def ofClauses (facts clauses : List Item) : Checked KnowledgeBase := do
  clauses.foldlM addClause (← facts.foldlM addFact empty)

/-! ### Facts that match -/

/-- The first of the facts that unifies with a literal, and the bindings of the
unification. -/
def firstMatch (goal : Literal) (b : Bindings) :
    List Literal → Checked (Option (Literal × Bindings))
  | [] => .ok none
  | fact :: facts =>
    match unifyLiterals goal fact b with
    | .ok (some c) => .ok (some (fact, c))
    | .ok none => firstMatch goal b facts
    | .error e => .error e

/-- The first stored fact that unifies with a goal.  A goal that is no literal has
no predicate to compare with a fact. -/
def matchFact (kb : KnowledgeBase) (goal : Item) (b : Bindings) :
    Checked (Option (Literal × Bindings)) :=
  match goal, kb.facts with
  | .literal l, facts => firstMatch l b facts
  | _, [] => .ok none
  | _, _ :: _ => .error .noProperty

end KnowledgeBase

end HornSearch
