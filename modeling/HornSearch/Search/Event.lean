/-
HornSearch/Search/Event.lean

What a search and the loading of a knowledge base record as they go.  An event is
data; `Event.wording` words it.
-/
import HornSearch.KnowledgeBase

namespace HornSearch

/-- Something worth recording. -/
inductive Event where
  /-- A knowledge base was loaded. -/
  | loaded (facts rules : Nat)
  /-- A goal is tried at a depth. -/
  | tried (goal : Item) (depth : Nat)
  /-- A goal is closed by a fact. -/
  | closed (goal : Item) (fact : Literal)
  /-- A goal was compared with the head of a fresh copy of a rule. -/
  | compared (goal : Item) (rule : Rule) (unified : Bool)
  /-- Neither a fact nor a rule proves a goal. -/
  | failed (goal : Item) (depth : Nat)
  /-- A query has no proof. -/
  | unproved (goals : List Item)

namespace Event

/-- The event of loading a knowledge base. -/
def ofLoaded (kb : KnowledgeBase) : Event := .loaded kb.factCount kb.ruleCount

/-- The level at which an event is recorded. -/
def level : Event → String
  | .loaded _ _ => "INFO"
  | _ => "DEBUG"

/-- The text of a number that is counted or measured. -/
def numberText? (n : Nat) : Except TextFlaw String := (Value.int n).text?

/-- The wording of an event, if what it is about has texts. -/
def wording : Event → Except TextFlaw String
  | .loaded facts rules => do
    let facts ← numberText? facts
    let rules ← numberText? rules
    return "Loaded knowledge base: " ++ facts ++ " facts, " ++ rules ++ " rules"
  | .tried goal depth => do
    let goal ← goal.text?
    let depth ← numberText? depth
    return "Goal " ++ goal ++ " at depth " ++ depth
  | .closed goal fact => do
    let goal ← goal.text?
    let fact ← fact.text?
    return "Goal " ++ goal ++ " closed by fact " ++ fact
  | .compared goal rule unified => do
    let goal ← goal.text?
    let rule ← rule.text?
    return "Goal " ++ goal ++ " vs rule " ++ rule ++ ": " ++
      if unified then "unified" else "no match"
  | .failed goal depth => do
    let goal ← goal.text?
    let depth ← numberText? depth
    return "Goal " ++ goal ++ " failed at depth " ++ depth
  | .unproved goals => do
    let goals ← (Item.list goals).text?
    return "No proof for " ++ goals

/-- The wording of an event that has one. -/
def text? (e : Event) : Option String := e.wording.toOption

end Event

end HornSearch
