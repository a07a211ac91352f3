/-
HornSearch/Proofs/Journal.lean

The search with a journal.  What a search returns does not tell what it went through:
a goal that is given up leaves no node, and a copy of a rule that does not unify
leaves nothing at all.  So the search is written once more as a computation that also
notes its steps, `Journaled`, and `Journaled.erase` forgets the notes.

The functions here follow those of the search line by line.  A goal is handed the goals
that are pending besides it: those after it in its own conjunction and in all the
conjunctions around it.

* `Journaled.erase_solve`, `Journaled.erase_solveGoals`, `Journaled.erase_prove`: without
  its journal the search is the search.

So whatever is proved about the outcome of a search with a journal holds of the search.
-/
import HornSearch.Search.Resolver
import HornSearch.Proofs.Environment

namespace HornSearch

/-- A computation that is done at once, and another one. -/
theorem Search.pure_bind {α β : Type} (a : α) (next : α → Search β) :
    (Pure.pure a >>= next) = next a := rfl

/-- A computation whose result is returned as it is. -/
theorem Search.bind_pure {α : Type} (s : Search α) : (s >>= fun a => Pure.pure a) = s := by
  funext trail
  show Search.bind s Search.pure trail = s trail
  rcases e : s trail with ⟨_ | _ | _, _⟩ <;> simp [Search.bind, Search.pure, e]

/-- Something that happens in a search. -/
inductive Step where
  /-- A goal is tried at a depth under bindings. -/
  | visited (goal : Literal) (depth : Nat) (b : Bindings)
  /-- For a goal under bindings, while other goals are pending, a rule is copied. -/
  | copied (goal : Literal) (pending : List Item) (b : Bindings) (copy : Rule)

/-- A computation of the search that also notes what happens, in order. -/
def Journaled (α : Type) : Type := Trail → (Outcome α × Trail) × List Step

namespace Journaled

variable {α β : Type}

/-- The computation without its journal. -/
def erase (s : Journaled α) : Search α := fun trail => (s trail).1

/-- The journal of the computation. -/
def steps (s : Journaled α) (trail : Trail) : List Step := (s trail).2

/-- A computation in which nothing is noted. -/
def lift (s : Search α) : Journaled α := fun trail => (s trail, [])

/-- Notes a step. -/
def note (step : Step) : Journaled Unit := fun trail => ((.proved (), trail), [step])

/-- One computation after another. -/
def bind (s : Journaled α) (next : α → Journaled β) : Journaled β := fun trail =>
  match s trail with
  | ((.proved a, trail), steps) => ((next a trail).1, steps ++ (next a trail).2)
  | ((.failed, trail), steps) => ((.failed, trail), steps)
  | ((.stopped fault, trail), steps) => ((.stopped fault, trail), steps)

instance : Monad Journaled where
  pure a := lift (Search.pure a)
  bind := bind

/-- A computation, and another one if it fails. -/
def orElse (s other : Journaled α) : Journaled α := fun trail =>
  match s trail with
  | ((.failed, trail), steps) => ((other trail).1, steps ++ (other trail).2)
  | ended => ended

/-- What succeeds and notes nothing hands on its result. -/
theorem lift_bind_of_proved {s : Search α} {next : α → Journaled β} {a : α} {trail trail' : Trail}
    (h : s trail = (.proved a, trail')) : (lift s >>= next) trail = next a trail' := by
  show Journaled.bind (lift s) next trail = next a trail'
  simp only [Journaled.bind, lift, h]
  rfl

/-! ### Forgetting the journal -/

@[simp] theorem erase_pure (a : α) : erase (pure a) = pure a := rfl

@[simp] theorem erase_lift (s : Search α) : erase (lift s) = s := rfl

@[simp] theorem erase_bind (s : Journaled α) (next : α → Journaled β) :
    erase (s >>= next) = erase s >>= fun a => erase (next a) := by
  funext trail
  show (Journaled.bind s next trail).1 = Search.bind (erase s) (fun a => erase (next a)) trail
  rcases e : s trail with ⟨⟨_ | _ | _, _⟩, _⟩ <;> simp [Journaled.bind, Search.bind, erase, e]

@[simp] theorem erase_orElse (s other : Journaled α) :
    erase (orElse s other) = Search.orElse (erase s) (erase other) := by
  funext trail
  rcases e : s trail with ⟨⟨_ | _ | _, _⟩, _⟩ <;> simp [orElse, Search.orElse, erase, e]

@[simp] theorem erase_note (step : Step) : erase (note step) = pure () := rfl

/-! ### The search -/

/-- A fresh copy of a rule for a goal, noted. -/
def copy (goal : Literal) (pending : List Item) (b : Bindings) (rule : Rule) :
    Journaled Rule := do
  let copy ← lift (Search.freshCopy rule)
  note (.copied goal pending b copy)
  return copy

/-- Proves goals from left to right, each under the bindings of those before. -/
def solveAll (solve : Literal → List Item → Bindings → Journaled (Bindings × ProofNode))
    (pending : List Item) : List Literal → Bindings → Journaled (Bindings × List ProofNode)
  | [], b => return (b, [])
  | goal :: goals, b => do
    let (b, node) ← solve goal (goals.map .literal ++ pending) b
    let (b, nodes) ← solveAll solve pending goals b
    return (b, node :: nodes)

/-- Proves a goal by one rule. -/
def solveByRule (settings : Settings)
    (solveBody : List Literal → Bindings → Journaled (Bindings × List ProofNode))
    (goal : Literal) (depth : Nat) (pending : List Item) (b : Bindings) (rule : Rule) :
    Journaled (Bindings × ProofNode) := do
  let copy ← copy goal pending b rule
  let unified ← lift (Search.ofChecked (unifyLiterals goal copy.head b))
  if settings.trace then
    lift (Search.record (.compared (.literal goal) copy unified.isSome))
  match unified with
  | none => lift Search.fail
  | some b =>
    let (b, children) ← solveBody copy.body b
    return (b, .byRule goal copy children depth)

/-- Proves a goal by the first rule of its predicate that does. -/
def solveByRules (settings : Settings)
    (solveBody : List Literal → Bindings → Journaled (Bindings × List ProofNode))
    (goal : Literal) (depth : Nat) (pending : List Item) (b : Bindings) :
    List Rule → Journaled (Bindings × ProofNode)
  | [] => do
    lift (Search.record (.failed (.literal goal) depth))
    lift Search.fail
  | rule :: rules =>
    if rule.head.predicate.equals goal.predicate then
      orElse (solveByRule settings solveBody goal depth pending b rule)
        (solveByRules settings solveBody goal depth pending b rules)
    else solveByRules settings solveBody goal depth pending b rules

/-- Proves a goal at a depth, by the facts or else by the rules. -/
def solve (kb : KnowledgeBase) (settings : Settings) :
    Nat → Nat → Literal → List Item → Bindings → Journaled (Bindings × ProofNode)
  | 0, depth, goal, _, b => do
    note (.visited goal depth b)
    lift (Resolver.guardDepth settings goal depth b)
    lift (Search.stop .endless)
  | levels + 1, depth, goal, pending, b => do
    note (.visited goal depth b)
    lift (Resolver.guardDepth settings goal depth b)
    lift (Search.record (.tried (.literal goal) depth))
    match ← lift (Search.ofChecked (KnowledgeBase.firstMatch goal b kb.facts)) with
    | some (fact, b) =>
      lift (Search.record (.closed (.literal goal) fact))
      return (b, .byFact goal fact depth)
    | none =>
      let solveBody := solveAll (solve kb settings levels (depth + 1)) pending
      solveByRules settings solveBody goal depth pending b kb.rules

/-- Proves the goals of a query from left to right. -/
def solveGoals (kb : KnowledgeBase) (settings : Settings) (levels : Nat) :
    List Item → Bindings → Journaled (Bindings × List ProofNode)
  | [], b => return (b, [])
  | goal :: goals, b => do
    let (b, node) ← match goal with
      | .literal l => solve kb settings levels 0 l goals b
      | i => lift (Resolver.solveStray kb i)
    let (b, nodes) ← solveGoals kb settings levels goals b
    return (b, node :: nodes)

/-- The goals of a query of literals are proved as a conjunction is. -/
theorem solveGoals_eq (kb : KnowledgeBase) (settings : Settings) (levels : Nat)
    (goals : List Literal) (b : Bindings) :
    solveGoals kb settings levels (goals.map .literal) b =
      solveAll (solve kb settings levels 0) [] goals b := by
  induction goals generalizing b with
  | nil => rfl
  | cons goal goals ih =>
    simp only [List.map_cons, solveGoals, solveAll, List.append_nil, ih]

/-- Looks for a proof of a query under starting bindings. -/
def prove (kb : KnowledgeBase) (settings : Settings) (levels : Nat) (query : Item)
    (b : Bindings) : Journaled ProofTree := do
  let goals ← lift (Search.ofChecked (Resolver.goalsOf query))
  lift (Search.skipPast (← lift (Search.ofChecked (Resolver.serialInPlay goals b))))
  orElse
    (do
      let proof ← solveGoals kb settings levels goals b
      return ⟨goals, some proof⟩)
    (lift (Resolver.unproved goals))

/-! ### The search without its journal -/

theorem erase_copy (goal : Literal) (pending : List Item) (b : Bindings) (rule : Rule) :
    erase (copy goal pending b rule) = Search.freshCopy rule := by
  simp only [copy, erase_bind, erase_lift, erase_note, erase_pure, Search.pure_bind]
  exact Search.bind_pure _

theorem erase_solveAll {solve : Literal → List Item → Bindings → Journaled (Bindings × ProofNode)}
    {solver : Resolver.GoalSolver}
    (h : ∀ goal pending b, erase (solve goal pending b) = solver goal b)
    (pending : List Item) (goals : List Literal) (b : Bindings) :
    erase (solveAll solve pending goals b) = Resolver.solveAll solver goals b := by
  induction goals generalizing b with
  | nil => rfl
  | cons goal goals ih =>
    simp only [solveAll, Resolver.solveAll, erase_bind, erase_pure, h, ih]

theorem erase_solveByRule {settings : Settings}
    {solveBody : List Literal → Bindings → Journaled (Bindings × List ProofNode)}
    {bodySolver : Resolver.GoalsSolver}
    (h : ∀ goals b, erase (solveBody goals b) = bodySolver goals b)
    (goal : Literal) (depth : Nat) (pending : List Item) (b : Bindings) (rule : Rule) :
    erase (solveByRule settings solveBody goal depth pending b rule) =
      Resolver.solveByRule settings bodySolver goal depth b rule := by
  -- erasing goes into both branches
  have hmatch : ∀ (copy : Rule) (unified : Option Bindings),
      erase (match unified with
        | none => lift Search.fail
        | some b => do
          let (b, children) ← solveBody copy.body b
          return (b, ProofNode.byRule goal copy children depth)) =
      (match unified with
        | none => Search.fail
        | some b => do
          let (b, children) ← bodySolver copy.body b
          return (b, ProofNode.byRule goal copy children depth)) := by
    intro copy unified
    cases unified with
    | none => rfl
    | some c => simp only [erase_bind, erase_pure, h]
  simp only [solveByRule, Resolver.solveByRule, erase_bind, erase_lift, erase_copy]
  cases settings.trace with
  | false =>
    simp only [Bool.false_eq_true, if_false]
    exact bind_congr fun copy => bind_congr fun unified => hmatch copy unified
  | true =>
    simp only [if_true, erase_bind, erase_lift]
    exact bind_congr fun copy => bind_congr fun unified => bind_congr fun _ =>
      hmatch copy unified

theorem erase_solveByRules {settings : Settings}
    {solveBody : List Literal → Bindings → Journaled (Bindings × List ProofNode)}
    {bodySolver : Resolver.GoalsSolver}
    (h : ∀ goals b, erase (solveBody goals b) = bodySolver goals b)
    (goal : Literal) (depth : Nat) (pending : List Item) (b : Bindings) (rules : List Rule) :
    erase (solveByRules settings solveBody goal depth pending b rules) =
      Resolver.solveByRules settings bodySolver goal depth b rules := by
  induction rules with
  | nil => simp only [solveByRules, Resolver.solveByRules, erase_bind, erase_lift]
  | cons rule rules ih =>
    rw [solveByRules, Resolver.solveByRules]
    split
    · rw [erase_orElse, ih, erase_solveByRule h]
    · exact ih

theorem erase_solve (kb : KnowledgeBase) (settings : Settings) (levels depth : Nat)
    (goal : Literal) (pending : List Item) (b : Bindings) :
    erase (solve kb settings levels depth goal pending b) =
      Resolver.solve kb settings levels depth goal b := by
  induction levels generalizing depth goal pending b with
  | zero =>
    simp only [solve, Resolver.solve, erase_bind, erase_note, erase_lift, Search.pure_bind]
  | succ levels ih =>
    have hbody : ∀ goals c,
        erase (solveAll (solve kb settings levels (depth + 1)) pending goals c) =
          Resolver.solveAll (Resolver.solve kb settings levels (depth + 1)) goals c :=
      erase_solveAll (ih (depth + 1)) pending
    have hmatch : ∀ found : Option (Literal × Bindings),
        erase (match found with
          | some (fact, b) => do
            lift (Search.record (.closed (.literal goal) fact))
            return (b, ProofNode.byFact goal fact depth)
          | none => solveByRules settings (solveAll (solve kb settings levels (depth + 1)) pending)
              goal depth pending b kb.rules) =
        (match found with
          | some (fact, b) => do
            Search.record (.closed (.literal goal) fact)
            return (b, ProofNode.byFact goal fact depth)
          | none => Resolver.solveByRules settings
              (Resolver.solveAll (Resolver.solve kb settings levels (depth + 1)))
              goal depth b kb.rules) := by
      intro found
      rcases found with _ | ⟨fact, c⟩
      · exact erase_solveByRules hbody goal depth pending b kb.rules
      · simp only [erase_bind, erase_lift, erase_pure]
    simp only [solve, Resolver.solve, erase_bind, erase_note, erase_lift, Search.pure_bind]
    exact bind_congr fun _ => bind_congr fun _ => bind_congr fun found => hmatch found

theorem erase_solveGoals (kb : KnowledgeBase) (settings : Settings) (levels : Nat)
    (goals : List Item) (b : Bindings) :
    erase (solveGoals kb settings levels goals b) =
      Resolver.solveGoals kb settings levels goals b := by
  induction goals generalizing b with
  | nil => rfl
  | cons goal goals ih =>
    cases goal <;>
      simp only [solveGoals, Resolver.solveGoals, erase_bind, erase_pure, ih, erase_solve,
        erase_lift]

/-- **Without its journal the search is the search.** -/
theorem erase_prove (kb : KnowledgeBase) (settings : Settings) (levels : Nat) (query : Item)
    (b : Bindings) :
    erase (prove kb settings levels query b) = Resolver.prove kb settings levels query b := by
  simp only [prove, Resolver.prove, erase_bind, erase_lift, erase_orElse, erase_solveGoals,
    erase_pure]

end Journaled

end HornSearch
