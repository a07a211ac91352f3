/-
HornSearch/Search/Resolver.lean

Backward chaining: depth-first search for one proof of a query.

A goal is closed by the first fact that unifies with it, and no other fact is
tried.  If none does, the rules with the predicate of the goal are tried in order:
a fresh copy is made, its head is unified with the goal, and its body is proved
from left to right; the first rule whose body is proved wins.  Otherwise the goal
fails.

Rules that never reach a fact make the search endless.  It counts down `levels`,
the nesting of goals that it may use, and running out of them is the fault
`Fault.endless`; the depth limit of the settings is checked before that, so with
more levels than the limit only the limit can stop a search.
-/
import HornSearch.Search.Proof
import HornSearch.Search.Trail
import HornSearch.Settings

namespace HornSearch.Resolver

/-- Proves a goal under bindings: more bindings and a node. -/
abbrev GoalSolver := Literal → Bindings → Search (Bindings × ProofNode)

/-- Proves goals under bindings: more bindings and a node for each goal. -/
abbrev GoalsSolver := List Literal → Bindings → Search (Bindings × List ProofNode)

/-- Proves goals from left to right, each under the bindings of those before. -/
def solveAll (solve : GoalSolver) : GoalsSolver
  | [], b => return (b, [])
  | goal :: goals, b => do
    let (b, node) ← solve goal b
    let (b, nodes) ← solveAll solve goals b
    return (b, node :: nodes)

/-- Proves a goal by one rule. -/
def solveByRule (settings : Settings) (solveBody : GoalsSolver) (goal : Literal) (depth : Nat)
    (b : Bindings) (rule : Rule) : Search (Bindings × ProofNode) := do
  let copy ← Search.freshCopy rule
  let unified ← Search.ofChecked (unifyLiterals goal copy.head b)
  if settings.trace then Search.record (.compared (.literal goal) copy unified.isSome)
  match unified with
  | none => Search.fail
  | some b =>
    let (b, children) ← solveBody copy.body b
    return (b, .byRule goal copy children depth)

/-- Proves a goal by the first rule of its predicate that does. -/
def solveByRules (settings : Settings) (solveBody : GoalsSolver) (goal : Literal) (depth : Nat)
    (b : Bindings) : List Rule → Search (Bindings × ProofNode)
  | [] => do
    Search.record (.failed (.literal goal) depth)
    Search.fail
  | rule :: rules =>
    if rule.head.predicate.equals goal.predicate then
      Search.orElse (solveByRule settings solveBody goal depth b rule)
        (solveByRules settings solveBody goal depth b rules)
    else solveByRules settings solveBody goal depth b rules

/-- The fault of a goal that is deeper than a limit.  It is worded as it is made, so it gives way
to that of the limit or the goal that has no text. -/
def depthFault (limit : Nat) (goal : Literal) : Fault :=
  match (Value.int limit).flaws ++ goal.toValue.flaws with
  | [] => .depthLimit limit goal
  | flaw :: _ => flaw.fault

/-- Stops the search at a goal that is deeper than the settings allow. -/
def guardDepth (settings : Settings) (goal : Literal) (depth : Nat) (b : Bindings) :
    Search Unit :=
  match settings.maxDepth with
  | none => return ()
  | some limit =>
    if limit < depth then do
      let goal ← Search.ofChecked (b.substituteLiteral goal)
      Search.stop (depthFault limit goal)
    else return ()

/-- Proves a goal at a depth, by the facts or else by the rules. -/
def solve (kb : KnowledgeBase) (settings : Settings) : Nat → Nat → GoalSolver
  | 0, depth, goal, b => do
    guardDepth settings goal depth b
    Search.stop .endless
  | levels + 1, depth, goal, b => do
    guardDepth settings goal depth b
    Search.record (.tried (.literal goal) depth)
    match ← Search.ofChecked (KnowledgeBase.firstMatch goal b kb.facts) with
    | some (fact, b) =>
      Search.record (.closed (.literal goal) fact)
      return (b, .byFact goal fact depth)
    | none =>
      let solveBody := solveAll (solve kb settings levels (depth + 1))
      solveByRules settings solveBody goal depth b kb.rules

/-! ### Queries -/

/-- The goals of a query: a literal, or the items of a sequence. -/
def goalsOf : Item → Checked (List Item)
  | .literal l => .ok [.literal l]
  | i => i.parts

/-- The serial of a bound variable. -/
def keySerial (key : Item) : Checked Value :=
  match key.var? with
  | some v => .ok v.serial
  | none => .error .noProperty

/-- The largest serial that a query and its bindings have in play. -/
def serialInPlay (goals : List Item) (b : Bindings) : Checked Value := do
  let inGoals ← Item.variablesOf goals
  let inValues ← Item.variablesOf b.values
  let inKeys ← b.keys.mapM keySerial
  largestSerial (inGoals.map (·.serial) ++ inKeys ++ inValues.map (·.serial))

/-- Fails for a goal that is a term or a rule; any clause of the knowledge base
asks such a goal for a predicate that it has not. -/
def solveStray (kb : KnowledgeBase) (goal : Item) : Search (Bindings × ProofNode) := do
  Search.record (.tried goal 0)
  if kb.facts.isEmpty && kb.rules.isEmpty then
    Search.record (.failed goal 0)
    Search.fail
  else Search.stop .noProperty

/-- Proves the goals of a query from left to right. -/
def solveGoals (kb : KnowledgeBase) (settings : Settings) (levels : Nat) :
    List Item → Bindings → Search (Bindings × List ProofNode)
  | [], b => return (b, [])
  | goal :: goals, b => do
    let (b, node) ← match goal with
      | .literal l => solve kb settings levels 0 l b
      | i => solveStray kb i
    let (b, nodes) ← solveGoals kb settings levels goals b
    return (b, node :: nodes)

/-- Records that a query has no proof. -/
def unproved (goals : List Item) : Search ProofTree := do
  Search.record (.unproved goals)
  return ⟨goals, none⟩

/-- Looks for a proof of a query under starting bindings. -/
def prove (kb : KnowledgeBase) (settings : Settings) (levels : Nat) (query : Item)
    (b : Bindings) : Search ProofTree := do
  let goals ← Search.ofChecked (goalsOf query)
  Search.skipPast (← Search.ofChecked (serialInPlay goals b))
  -- a proof that fails is an answer, and is recorded as one
  Search.orElse
    (do
      let proof ← solveGoals kb settings levels goals b
      return ⟨goals, some proof⟩)
    (unproved goals)

/-- Looks for a proof with a source of serials of its own, from no bindings. -/
def proveAlone (kb : KnowledgeBase) (settings : Settings) (levels : Nat) (query : Item)
    (recording : Bool) : Outcome ProofTree × Trail :=
  prove kb settings levels query .empty { source := ⟨.int settings.freshStart⟩, recording }

/-- The nesting of goals that is granted to a search as it is run.  Without a depth limit it
is far more than any search that ends makes use of.  With one it lets the limit be reached,
but never more than 1000 are granted: a limit above 998 cannot be reached, and a search that
goes as deep ends in `Fault.endless`.  What is proved of a limit is proved for any nesting
above it. -/
def levelsFor (settings : Settings) : Nat :=
  match settings.maxDepth with
  | none => 500
  | some limit => min (limit + 2) 1000

end HornSearch.Resolver
