/-
HornSearch/Proofs/Certificate.lean

Proof trees are certificates.  `IsCertificate kb limit goals θ nodes` lists what can be
checked of a forest without searching: which goals its roots have, how each node is
closed under the final bindings, that no two copies of rules share a variable, and how
deep it is.  `prove_certificate` says that every proof that is returned passes.

Nodes are closed one by one, so that part is read off `Closes`.  That copies share no
variable is about serials, which rise along the search (`Proved.rising`).
-/
import HornSearch.Proofs.ClosedTrees
import Mathlib.Data.List.Permutation

namespace HornSearch

namespace ProofNode

mutual

/-- The node and all nodes under it, each before its children. -/
def all : ProofNode → List ProofNode
  | .byFact goal fact depth => [.byFact goal fact depth]
  | .byRule goal rule children depth => .byRule goal rule children depth :: allOf children

/-- The nodes of a forest. -/
def allOf : List ProofNode → List ProofNode
  | [] => []
  | node :: nodes => all node ++ allOf nodes

end

/-- The copies of rules in a forest. -/
def rulesOf (nodes : List ProofNode) : List Rule := (allOf nodes).filterMap rule?

@[simp] theorem rulesOf_nil : rulesOf [] = [] := by
  simp [rulesOf, allOf]

@[simp] theorem rulesOf_byFact (goal fact : Literal) (depth : Nat) (nodes : List ProofNode) :
    rulesOf (.byFact goal fact depth :: nodes) = rulesOf nodes := by
  simp [rulesOf, allOf, all, rule?, List.filterMap_cons]

@[simp] theorem rulesOf_byRule (goal : Literal) (rule : Rule) (children : List ProofNode)
    (depth : Nat) (nodes : List ProofNode) :
    rulesOf (.byRule goal rule children depth :: nodes) =
      rule :: (rulesOf children ++ rulesOf nodes) := by
  simp [rulesOf, allOf, all, rule?]

theorem rulesOf_cons (node : ProofNode) (nodes : List ProofNode) :
    rulesOf (node :: nodes) = rulesOf [node] ++ rulesOf nodes := by
  cases node <;> simp

end ProofNode

/-! ### Certificates -/

/-- The items are equal literals once the environment is applied. -/
def SameUnder (θ : Bindings) (l m : Literal) : Prop :=
  ∃ l' m', θ.substitute (.literal l) = .ok (.literal l') ∧
    θ.substitute (.literal m) = .ok (.literal m') ∧ (l' == m') = true

/-- The node has a fact and no rule and no children, and its goal is that fact. -/
def ClosedByFact (kb : KnowledgeBase) (θ : Bindings) (node : ProofNode) : Prop :=
  node.rule? = none ∧ node.children = [] ∧ ∃ fact ∈ kb.facts, node.fact? = some fact ∧
    ∃ goal, θ.substitute (.literal node.goal) = .ok (.literal goal) ∧ (goal == fact) = true

/-- The node has no fact and a variant of a rule, whose head is its goal, and its
children have the goals of the body one level deeper. -/
def ClosedByRule (kb : KnowledgeBase) (θ : Bindings) (node : ProofNode) : Prop :=
  node.fact? = none ∧ ∃ copy, node.rule? = some copy ∧ (∃ r ∈ kb.rules, copy.IsVariant r) ∧
    SameUnder θ node.goal copy.head ∧
    List.Forall₂ (fun goal child => child.goal = goal ∧ child.depth = node.depth + 1)
      copy.body node.children

/-- What can be checked of a forest that proves goals under bindings. -/
structure IsCertificate (kb : KnowledgeBase) (limit : Option Nat) (goals : List Literal)
    (θ : Bindings) (nodes : List ProofNode) : Prop where
  /-- There is one root for each goal, in order. -/
  roots : List.Forall₂ (fun goal node => node.goal = goal ∧ node.depth = 0) goals nodes
  /-- Each node is closed, by a fact or else by a rule. -/
  closed : ∀ node ∈ ProofNode.allOf nodes, ClosedByFact kb θ node ∨ ClosedByRule kb θ node
  /-- No two copies of rules share a variable. -/
  disjoint : (ProofNode.rulesOf nodes).Pairwise fun r s => ∀ v ∈ r.occurrences, v ∉ s.occurrences
  /-- No node is deeper than the limit. -/
  depth : ∀ N, limit = some N → ∀ node ∈ ProofNode.allOf nodes, node.depth ≤ N

section Checking

variable {kb : KnowledgeBase} {limit : Option Nat} {depth : Nat} {goals : List Literal}
variable {nodes : List ProofNode} {θ b c : Bindings} {n m : Int}

/-- **Serials rise** along a proof: the copies in it lie between its first and its last
serial, and each precedes those after it. -/
theorem Proved.rising (h : Proved kb limit depth goals b n c nodes m) :
    (∀ r ∈ ProofNode.rulesOf nodes, ∀ v ∈ r.occurrences, v.AtLeast n ∧ v.Below m) ∧
      (ProofNode.rulesOf nodes).Pairwise fun r s => Precede r.occurrences s.occurrences := by
  induction h with
  | nil _ => simp
  | fact _ _ _ _ ih => simpa using ih
  | @rule depth goal goals rule copy b c d e children nodes n i j k m _ _ hni hcopy _ hbody hrest
      ihbody ih =>
    obtain ⟨hin, hrising⟩ := ihbody
    obtain ⟨hin', hrising'⟩ := ih
    have hij := hcopy.lt
    have hjk := hbody.le
    have hkm := hrest.le
    rw [ProofNode.rulesOf_byRule]
    constructor
    · intro r hr v hv
      rcases List.mem_cons.1 hr with rfl | hr
      · obtain ⟨hlow, hhigh⟩ := hcopy.fresh v hv
        exact ⟨hlow.mono hni, hhigh.mono (by omega)⟩
      · rcases List.mem_append.1 hr with hr | hr
        · obtain ⟨hlow, hhigh⟩ := hin r hr v hv
          exact ⟨hlow.mono (by omega), hhigh.mono hkm⟩
        · obtain ⟨hlow, hhigh⟩ := hin' r hr v hv
          exact ⟨hlow.mono (by omega), hhigh⟩
    -- the copy comes first, then those of its children, then those of the goals after it
    · refine List.pairwise_cons.2 ⟨fun r hr v hv w hw => ?_, List.pairwise_append.2
        ⟨hrising, hrising', fun r hr s hs v hv w hw => ?_⟩⟩
      · have hv' := (hcopy.fresh v hv).2
        rcases List.mem_append.1 hr with hr | hr
        · exact hv'.before (hin r hr w hw).1
        · exact hv'.before ((hin' r hr w hw).1.mono hjk)
      · exact (hin r hr v hv).2.before (hin' s hs w hw).1

/-- A forest has the goals that it closes for its roots. -/
theorem Closes.roots {σ : Assignment} (h : Closes kb σ limit depth goals nodes) :
    List.Forall₂ (fun goal node => node.goal = goal ∧ node.depth = depth) goals nodes := by
  induction h with
  | nil => exact .nil
  | fact _ _ _ _ ih => exact .cons ⟨rfl, rfl⟩ ih
  | rule _ _ _ _ _ _ _ _ ih => exact .cons ⟨rfl, rfl⟩ ih

/-- Each node of a forest that the solution of an environment closes is closed under
the environment. -/
theorem Closes.closed (h : Closes kb θ.solution limit depth goals nodes) (hθ : θ.Meets .regular)
    (hac : θ.Acyclic) (hg : ∀ g ∈ goals, g.meets .regular = true) :
    ∀ node ∈ ProofNode.allOf nodes, (ClosedByFact kb θ node ∨ ClosedByRule kb θ node) ∧
      ∀ N, limit = some N → node.depth ≤ N := by
  induction h with
  | nil => simp [ProofNode.allOf]
  | @fact depth goal fact goals nodes hlimit hfact heq _ ih =>
    obtain ⟨hgoal, hg⟩ := List.forall_mem_cons.1 hg
    rw [ProofNode.allOf, ProofNode.all, List.forall_mem_append, List.forall_mem_singleton]
    refine ⟨⟨.inl ⟨rfl, rfl, fact, hfact, rfl, ?_⟩, hlimit⟩, ih hg⟩
    exact ⟨_, hac.substitute_literal hθ hgoal, heq⟩
  | @rule depth goal goals rule copy children nodes hlimit hrule hvariant hcopy heq hbody _
      ihbody ih =>
    obtain ⟨hgoal, hg⟩ := List.forall_mem_cons.1 hg
    obtain ⟨hhead, hbodies⟩ := Rule.meets_iff.1 hcopy
    rw [ProofNode.allOf, ProofNode.all, List.forall_mem_append, List.forall_mem_cons]
    -- the children have the goals of the body, since they close it
    refine ⟨⟨⟨.inr ⟨rfl, copy, rfl, ⟨rule, hrule, hvariant⟩, ?_, hbody.roots⟩, hlimit⟩,
      ihbody hbodies⟩, ih hg⟩
    exact ⟨_, _, hac.substitute_literal hθ hgoal, hac.substitute_literal hθ hhead, heq⟩

/-- **Proof trees are certificates**: if a query of literals is proved, then its tree
passes every check under its bindings. -/
theorem prove_certificate {settings : Settings} {levels : Nat} {query : Item}
    {trail trail' : Trail} {tree : ProofTree} (hkb : kb.Meets .regular)
    (hq : Resolver.goalsOf query = .ok (goals.map .literal))
    (hg : ∀ g ∈ goals, g.meets .regular = true) (hb : b.Meets .regular) (hac : b.Acyclic)
    (htrail : trail.source = ⟨.int n⟩)
    (hprove : Resolver.prove kb settings levels query b trail = (.proved tree, trail'))
    (hvalid : tree.bindings? = some θ) :
    tree.query = goals.map .literal ∧
      IsCertificate kb settings.maxDepth goals θ tree.nodes := by
  obtain ⟨nodes, k, m, rfl, -, hproved, -⟩ :=
    Resolver.proved_of_valid hkb hq hg hb htrail hprove hvalid
  have hθ := hproved.meets hb
  have hacθ := hproved.acyclic hac
  have hcloses := (hproved.closes hkb (hacθ.solution_meets_regular hθ) (hacθ.solves_solution hθ)).2
  have hclosed := hcloses.closed hθ hacθ hg
  refine ⟨rfl, hcloses.roots, fun node h => (hclosed node h).1, ?_,
    fun N hN node h => (hclosed node h).2 N hN⟩
  refine hproved.rising.2.imp fun {r s} hrs v hv hv' => ?_
  exact (hrs v hv v hv').ne rfl

end Checking

open Family in
/-- The certificate of a search that goes astray first: of the five copies of rules that
are made, two are in the tree. -/
theorem certificate_family :
    ∃ tree trail θ, Resolver.prove clauses { maxDepth := some 3 } 9
        (.list (Family.goals.map .literal)) start { source := ⟨.int 5⟩ } = (.proved tree, trail) ∧
      tree.bindings? = some θ ∧ trail.source.upcoming = .int 10 ∧
      (ProofNode.rulesOf tree.nodes).length = 2 ∧
      IsCertificate clauses (some 3) Family.goals θ tree.nodes := by
  obtain ⟨tree, trail, θ, hprove, hvalid, hsource, hrules⟩ : ∃ tree trail θ,
      Resolver.prove clauses { maxDepth := some 3 } 9 (.list (Family.goals.map .literal)) start
        { source := ⟨.int 5⟩ } = (.proved tree, trail) ∧ tree.bindings? = some θ ∧
      trail.source.upcoming = .int 10 ∧ (ProofNode.rulesOf tree.nodes).length = 2 :=
    ⟨_, _, _, by cbv, by cbv, by cbv, by cbv⟩
  have h := prove_certificate clauses_meets rfl (by decide) start_meets start_acyclic rfl hprove
    hvalid
  exact ⟨tree, trail, θ, hprove, hvalid, hsource, hrules, h.2⟩

end HornSearch
