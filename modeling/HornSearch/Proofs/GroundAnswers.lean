/-
HornSearch/Proofs/GroundAnswers.lean

Answers without variables.  If every variable in the head of a rule occurs in its body
(`Rule.IsRangeRestricted`), then whatever a knowledge base proves is ground: facts are ground,
and a head is ground once its body is.

The search records goals under the bindings of the moment, where they may well have variables
left.  So the argument is about the final bindings: their full values close the tree
(`Proved.closes`), and in a tree that an assignment closes every goal has a ground instance
(`Closes.isGround`), from the leaves upwards.  The copies of rules in the tree are range
restricted since variants are (`Rule.IsVariant.isRangeRestricted`).
-/
import HornSearch.Proofs.Certificate
import HornSearch.Proofs.Consequence
import HornSearch.Proofs.Renamings

namespace HornSearch

variable {kb : KnowledgeBase} {σ : Assignment} {limit : Option Nat} {depth : Nat}
variable {goals : List Literal} {nodes : List ProofNode} {b θ : Bindings} {n : Int}

/-! ### Range restricted rules -/

/-- Every variable in the head occurs in the body. -/
def Rule.IsRangeRestricted (r : Rule) : Prop :=
  ∀ v ∈ r.head.occurrences, ∃ l ∈ r.body, v ∈ l.occurrences

theorem Rule.IsVariant.isRangeRestricted {r copy : Rule} (h : copy.IsVariant r)
    (hr : r.IsRangeRestricted) : copy.IsRangeRestricted := by
  obtain ⟨ρ, rfl, -⟩ := h
  intro v hv
  obtain ⟨w, hw, rfl⟩ := Literal.mem_occurrences_rename.1 hv
  obtain ⟨l, hl, hwl⟩ := hr w hw
  exact ⟨_, List.mem_map_of_mem hl, Literal.mem_occurrences_rename.2 ⟨w, hwl, rfl⟩⟩

/-- The head has a ground instance where the whole body has one. -/
theorem Rule.IsRangeRestricted.isGround_head {r : Rule} (h : r.IsRangeRestricted)
    (hbody : ∀ l ∈ r.body, (l.instantiate σ).isGround = true) :
    (r.head.instantiate σ).isGround = true := by
  rw [Literal.isGround_iff, List.eq_nil_iff_forall_not_mem]
  intro w hw
  obtain ⟨v, hv, hwv⟩ := Literal.mem_occurrences_instantiate.1 hw
  obtain ⟨l, hl, hvl⟩ := h v hv
  have hw' := Literal.mem_occurrences_instantiate.2 ⟨v, hvl, hwv⟩
  rw [Literal.isGround_iff.1 (hbody l hl)] at hw'
  cases hw'

/-! ### Closed trees -/

/-- **Closed trees are ground**: every goal in a tree that the assignment closes has a ground
instance. -/
theorem Closes.isGround (hkb : kb.Meets .regular) (hrr : ∀ r ∈ kb.rules, r.IsRangeRestricted)
    (h : Closes kb σ limit depth goals nodes) (hσ : σ.Meets .regular)
    (hg : ∀ g ∈ goals, g.meets .regular = true) :
    (∀ g ∈ goals, (g.instantiate σ).isGround = true) ∧
      ∀ node ∈ ProofNode.allOf nodes, node.goal.meets .regular = true ∧
        (node.goal.instantiate σ).isGround = true := by
  induction h with
  | nil => simp [ProofNode.allOf]
  | @fact depth goal fact goals nodes _ hfact heq _ ih =>
    obtain ⟨hgoal, hg⟩ := List.forall_mem_cons.1 hg
    obtain ⟨hgoals, hnodes⟩ := ih hg
    obtain ⟨hfact, hground⟩ := hkb.facts fact hfact
    have hgoal' := Literal.isGround_of_beq (hσ.literal hgoal) hfact heq hground
    rw [ProofNode.allOf, ProofNode.all, List.forall_mem_append, List.forall_mem_singleton]
    exact ⟨List.forall_mem_cons.2 ⟨hgoal', hgoals⟩, ⟨hgoal, hgoal'⟩, hnodes⟩
  | @rule depth goal goals rule copy children nodes _ hrule hvariant hcopy heq _ _ ihbody ih =>
    obtain ⟨hgoal, hg⟩ := List.forall_mem_cons.1 hg
    obtain ⟨hgoals, hnodes⟩ := ih hg
    obtain ⟨hhead, hbody⟩ := Rule.meets_iff.1 hcopy
    -- the children ground the body, the body the head, and the head the goal
    obtain ⟨hbodies, hchildren⟩ := ihbody hbody
    have hhead' := (hvariant.isRangeRestricted (hrr rule hrule)).isGround_head hbodies
    have hgoal' := Literal.isGround_of_beq (hσ.literal hgoal) (hσ.literal hhead) heq hhead'
    rw [ProofNode.allOf, ProofNode.all, List.forall_mem_append]
    exact ⟨List.forall_mem_cons.2 ⟨hgoal', hgoals⟩,
      List.forall_mem_cons.2 ⟨⟨hgoal, hgoal'⟩, hchildren⟩, hnodes⟩

/-! ### Queries -/

/-- **Answers are ground** where every rule is range restricted: if a query of literals is
proved, then no variable is left in its answer, nor in the goal of any node of its tree. -/
theorem prove_ground {settings : Settings} {levels : Nat} {query : Item} {trail trail' : Trail}
    {tree : ProofTree} (hkb : kb.Meets .regular) (hrr : ∀ r ∈ kb.rules, r.IsRangeRestricted)
    (hq : Resolver.goalsOf query = .ok (goals.map .literal))
    (hg : ∀ g ∈ goals, g.meets .regular = true) (hb : b.Meets .regular) (hac : b.Acyclic)
    (htrail : trail.source = ⟨.int n⟩)
    (hprove : Resolver.prove kb settings levels query b trail = (.proved tree, trail'))
    (hvalid : tree.bindings? = some θ) :
    (∃ answers : List Literal, tree.answer = .ok (some (answers.map .literal)) ∧
      ∀ a ∈ answers, a.isGround = true) ∧
    ∀ node ∈ ProofNode.allOf tree.nodes, ∃ l : Literal,
      θ.substitute (.literal node.goal) = .ok (.literal l) ∧ l.isGround = true := by
  obtain ⟨nodes, k, m, rfl, -, hproved, -⟩ :=
    Resolver.proved_of_valid hkb hq hg hb htrail hprove hvalid
  have hθ := hproved.meets hb
  have hacθ := hproved.acyclic hac
  have hσ := hacθ.solution_meets_regular hθ
  have hcloses := (hproved.closes hkb hσ (hacθ.solves_solution hθ)).2
  obtain ⟨hgoals, hnodes⟩ := hcloses.isGround hkb hrr hσ hg
  refine ⟨⟨_, answer_eq hacθ hθ hg, List.forall_mem_map.2 hgoals⟩, fun node hnode => ?_⟩
  obtain ⟨hgoal, hground⟩ := hnodes node hnode
  exact ⟨_, hacθ.substitute_literal hθ hgoal, hground⟩

namespace Family

/-- Whoever has a grandchild owns a house with the child in it. -/
def houses : KnowledgeBase := .ofList [
  .fact (parent (person "tom") (person "bob")),
  .fact (parent (person "bob") (person "ann")),
  .rule ⟨⟨.str "owns", [someone "X", .app (.str "house") [someone "X", someone "Y"]]⟩,
    [parent (someone "X") (someone "Y"), parent (someone "Y") (someone "Z")]⟩]

theorem houses_meets : houses.Meets .regular where
  facts := by decide
  rules := by decide

theorem houses_isRangeRestricted : ∀ r ∈ houses.rules, r.IsRangeRestricted := by
  simp [houses, Clause.rule?, Rule.IsRangeRestricted, parent, someone, Literal.occurrences,
    Term.occurrencesList, Term.occurrences]

end Family

open Family in
/-- The owner and the house are both found, though the rule has a third variable. -/
theorem ground_houses : ∃ tree trail θ,
    Resolver.prove houses {} 9 (.literal ⟨.str "owns", [someone "A", someone "B"]⟩) .empty
      { source := ⟨.int 5⟩ } = (.proved tree, trail) ∧ tree.bindings? = some θ ∧
    (ProofNode.allOf tree.nodes).length = 3 ∧
    (∃ answers : List Literal, tree.answer = .ok (some (answers.map .literal)) ∧
      ∀ a ∈ answers, a.isGround = true) ∧
    ∀ node ∈ ProofNode.allOf tree.nodes, ∃ l : Literal,
      θ.substitute (.literal node.goal) = .ok (.literal l) ∧ l.isGround = true := by
  obtain ⟨tree, trail, θ, hprove, hvalid, hlength⟩ : ∃ tree trail θ,
      Resolver.prove houses {} 9 (.literal ⟨.str "owns", [someone "A", someone "B"]⟩) .empty
        { source := ⟨.int 5⟩ } = (.proved tree, trail) ∧ tree.bindings? = some θ ∧
      (ProofNode.allOf tree.nodes).length = 3 :=
    ⟨_, _, _, by cbv, by cbv, by cbv⟩
  have hgoals : ∀ g ∈ [(⟨.str "owns", [someone "A", someone "B"]⟩ : Literal)],
      g.meets .regular = true := by decide
  have hquery : Resolver.goalsOf (.literal ⟨.str "owns", [someone "A", someone "B"]⟩) =
      .ok ([⟨.str "owns", [someone "A", someone "B"]⟩].map .literal) := rfl
  have h := prove_ground houses_meets houses_isRangeRestricted hquery hgoals Bindings.meets_empty
    Bindings.acyclic_empty rfl hprove hvalid
  exact ⟨tree, trail, θ, hprove, hvalid, hlength, h⟩

end HornSearch
