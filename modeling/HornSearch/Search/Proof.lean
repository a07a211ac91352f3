/-
HornSearch/Search/Proof.lean

Proof trees: the record of how each goal of a query was closed.
-/
import HornSearch.KnowledgeBase

namespace HornSearch

/-- A proved goal: closed by a fact, or by a fresh copy of a rule with the proofs
of its body. -/
inductive ProofNode where
  | byFact (goal fact : Literal) (depth : Nat)
  | byRule (goal : Literal) (rule : Rule) (children : List ProofNode) (depth : Nat)
  deriving Inhabited

namespace ProofNode

/-- The goal that the node proves. -/
def goal : ProofNode → Literal
  | .byFact goal _ _ => goal
  | .byRule goal _ _ _ => goal

/-- The fact that closed the goal. -/
def fact? : ProofNode → Option Literal
  | .byFact _ fact _ => some fact
  | .byRule _ _ _ _ => none

/-- The fresh copy of a rule that proved the goal. -/
def rule? : ProofNode → Option Rule
  | .byFact _ _ _ => none
  | .byRule _ rule _ _ => some rule

/-- The proofs of the body of the rule. -/
def children : ProofNode → List ProofNode
  | .byFact _ _ _ => []
  | .byRule _ _ children _ => children

/-- The depth of the goal. -/
def depth : ProofNode → Nat
  | .byFact _ _ depth => depth
  | .byRule _ _ _ depth => depth

/-- Whether no subgoal was proved under the goal. -/
def isLeaf (n : ProofNode) : Bool := n.children.isEmpty

/-- The text of a node. -/
def text? (n : ProofNode) : Except TextFlaw String := n.goal.text?.map ("[✓] " ++ ·)

end ProofNode

/-- The outcome of a query: its goals, and if it is proved the bindings and a node
for each goal. -/
structure ProofTree where
  query : List Item
  proof : Option (Bindings × List ProofNode)
  deriving Inhabited

namespace ProofTree

/-- Whether the query is proved. -/
def isValid (t : ProofTree) : Bool := t.proof.isSome

/-- The bindings under which the query is proved. -/
def bindings? (t : ProofTree) : Option Bindings := t.proof.map (·.1)

/-- The nodes of the goals, in order. -/
def nodes (t : ProofTree) : List ProofNode :=
  match t.proof with
  | some (_, nodes) => nodes
  | none => []

/-- The query with the bindings applied, if it is proved. -/
def answer (t : ProofTree) : Checked (Option (List Item)) :=
  match t.proof with
  | some (b, _) => (t.query.mapM b.substitute).map some
  | none => .ok none

end ProofTree

/-! ### Export -/

/-- A proof node in texts. -/
inductive ShownNode where
  | mk (goal : String) (depth : Nat) (fact rule : Option String) (children : List ShownNode)

/-- A proof tree in texts. -/
structure ShownTree where
  query : List String
  valid : Bool
  bindings : Option (List (String × String))
  nodes : List ShownNode

mutual

/-- The texts of a node. -/
def ProofNode.shown : ProofNode → Checked ShownNode
  | .byFact goal fact depth => do
    return .mk (← textOrFault goal.text?) depth (some (← textOrFault fact.text?)) none []
  | .byRule goal rule children depth => do
    let goal ← textOrFault goal.text?
    let rule ← textOrFault rule.text?
    return .mk goal depth none (some rule) (← shownNodes children)

/-- The texts of a list of nodes. -/
def shownNodes : List ProofNode → Checked (List ShownNode)
  | [] => .ok []
  | n :: ns => do
    let n ← n.shown
    return n :: (← shownNodes ns)

end

/-- The text of an item at the top, where a plain string is not quoted. -/
def Item.shown : Item → Checked String
  | .raw v => textOrFault v.bareText?
  | i => textOrFault i.text?

/-- The values of the bound variables in texts. -/
def Bindings.shown (b : Bindings) : Checked (List (String × String)) := do
  (← b.display true).mapM fun e => do return (e.1, ← e.2.shown)

/-- The texts of a tree. -/
def ProofTree.shown (t : ProofTree) : Checked ShownTree := do
  let query ← t.query.mapM Item.shown
  let bindings ← match t.proof with
    | some (b, _) => b.shown.map some
    | none => .ok none
  return ⟨query, t.isValid, bindings, ← shownNodes t.nodes⟩

end HornSearch
