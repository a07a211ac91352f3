/-
HornSearch/Proofs/Consequence.lean

Answers are consequences of the knowledge base.  `IsModel kb M` says that a set of
literals holds the facts and follows the rules on their ground instances; literals are
told apart by equality only.  The main result, `prove_consequence`, is that every ground
instance of an answer is in every such set.

The proof assigns ground terms to all variables, those of the query and those of all
copies of rules in the tree alike, in such a way that the final bindings are solved.
That assignment closes the tree, and a closed tree is a derivation in the model
(`Closes.mem_model`).
-/
import HornSearch.Proofs.ClosedTrees
import Mathlib.Data.List.Permutation

namespace HornSearch

variable {kb : KnowledgeBase} {M : Set Literal} {σ τ : Assignment} {goals : List Literal}

/-- The literal is a ground instance of another one, by well-formed terms. -/
def Literal.IsGroundInstance (l a : Literal) : Prop :=
  ∃ τ, l = a.instantiate τ ∧ l.isGround = true ∧ l.meets .regular = true

/-- The rule is a ground instance of another one, by well-formed terms. -/
def Rule.IsGroundInstance (s r : Rule) : Prop :=
  ∃ τ, s = r.instantiate τ ∧ s.occurrences = [] ∧ s.meets .regular = true

/-- The set of literals respects equality, holds the facts, and holds the head of a
ground instance of a rule if it holds the body. -/
structure IsModel (kb : KnowledgeBase) (M : Set Literal) : Prop where
  equal : ∀ l ∈ M, ∀ m : Literal, m.meets .regular = true → (l == m) = true → m ∈ M
  facts : ∀ f ∈ kb.facts, f ∈ M
  rules : ∀ r ∈ kb.rules, ∀ s : Rule, s.IsGroundInstance r → (∀ l ∈ s.body, l ∈ M) → s.head ∈ M

/-! ### Ground assignments -/

/-- The assignment gives every regular variable a regular term, and no term that it
gives has a variable. -/
structure Assignment.IsGround (σ : Assignment) : Prop where
  regular : σ.Meets .regular
  ground : ∀ v, (σ v).occurrences = []

theorem Assignment.IsGround.term (hσ : σ.IsGround) (t : Term) :
    (t.instantiate σ).occurrences = [] := by
  refine List.eq_nil_iff_forall_not_mem.2 fun w hw => ?_
  obtain ⟨v, -, hv⟩ := Term.mem_occurrences_instantiate.1 hw
  rw [hσ.ground v] at hv
  cases hv

theorem Assignment.IsGround.literal (hσ : σ.IsGround) (l : Literal) :
    (l.instantiate σ).occurrences = [] := by
  rw [← Literal.occurrences_asTerm, Literal.asTerm_instantiate]
  exact hσ.term l.asTerm

theorem Assignment.IsGround.rule (hσ : σ.IsGround) (r : Rule) :
    (r.instantiate σ).occurrences = [] := by
  refine List.eq_nil_iff_forall_not_mem.2 fun w hw => ?_
  rw [Rule.mem_occurrences] at hw
  rcases hw with hw | ⟨l, hl, hw⟩
  · rw [Rule.instantiate, hσ.literal] at hw
    cases hw
  · obtain ⟨l', -, rfl⟩ := List.mem_map.1 hl
    rw [hσ.literal] at hw
    cases hw

theorem Assignment.Meets.literal (hσ : σ.Meets .regular) {l : Literal}
    (hl : l.meets .regular = true) : (l.instantiate σ).meets .regular = true :=
  Literal.meets_instantiate hl fun v hv =>
    hσ v (Literal.var_of_mem_occurrences (p := .regular) hl hv)

theorem Literal.beq_symm {l m : Literal} (hl : l.meets .regular = true)
    (hm : m.meets .regular = true) (h : (l == m) = true) : (m == l) = true :=
  Literal.beq_iff_alike.2 (Term.alike_symm hl hm (Literal.beq_iff_alike.1 h))

/-- A variant of a rule has the ground instances of the rule. -/
theorem Rule.IsVariant.isGroundInstance {r copy : Rule} (h : copy.IsVariant r)
    (hcopy : copy.meets .regular = true) (hσ : σ.IsGround) :
    (copy.instantiate σ).IsGroundInstance r := by
  obtain ⟨ρ, rfl, -⟩ := h
  refine ⟨fun v => σ (ρ v), ?_, hσ.rule _, ?_⟩
  · have hl : ∀ l : Literal, (l.rename ρ).instantiate σ = l.instantiate fun v => σ (ρ v) := by
      intro l
      rw [Literal.rename_eq_instantiate, Literal.instantiate_instantiate]
      simp only [Term.instantiate_var]
    simp only [Rule.instantiate, Rule.rename, List.map_map, hl, Function.comp_def]
  · refine Rule.meets_instantiate hcopy fun v hv => hσ.regular v ?_
    exact Rule.var_of_mem_occurrences (p := .regular) hcopy hv

/-- **A tree that a ground assignment closes is a derivation** in every model. -/
theorem Closes.mem_model {limit : Option Nat} {depth : Nat} {nodes : List ProofNode}
    (hkb : kb.Meets .regular) (hM : IsModel kb M) (h : Closes kb σ limit depth goals nodes)
    (hσ : σ.IsGround) (hg : ∀ g ∈ goals, g.meets .regular = true) :
    ∀ g ∈ goals, g.instantiate σ ∈ M := by
  induction h with
  | nil => simp
  | @fact depth goal fact goals nodes _ hfact heq _ ih =>
    obtain ⟨hgoal, hg⟩ := List.forall_mem_cons.1 hg
    refine List.forall_mem_cons.2 ⟨?_, ih hg⟩
    have hregular := hσ.regular.literal hgoal
    refine hM.equal fact (hM.facts fact hfact) _ hregular ?_
    exact Literal.beq_symm hregular (hkb.facts fact hfact).1 heq
  | @rule depth goal goals rule copy children nodes _ hrule hvariant hcopy heq _ _ ihbody ih =>
    obtain ⟨hgoal, hg⟩ := List.forall_mem_cons.1 hg
    obtain ⟨hhead, hbody⟩ := Rule.meets_iff.1 hcopy
    refine List.forall_mem_cons.2 ⟨?_, ih hg⟩
    -- the children prove the body, so the instance of the rule has its head in the model
    have hinstance : (copy.instantiate σ).head ∈ M := by
      refine hM.rules rule hrule _ (hvariant.isGroundInstance hcopy hσ) ?_
      intro l hl
      obtain ⟨a, ha, rfl⟩ := List.mem_map.1 hl
      exact ihbody hbody a ha
    have hregular := hσ.regular.literal hgoal
    refine hM.equal _ hinstance _ hregular ?_
    exact Literal.beq_symm hregular (hσ.regular.literal hhead) heq

/-! ### Answers -/

/-- An assignment after the full values solves the environment. -/
theorem solves_solution_instantiate {b : Bindings} (hac : b.Acyclic) (h : b.Meets .regular)
    (hτ : τ.Meets .regular) : Solves (fun v => (b.solution v).instantiate τ) b := by
  intro v t ht
  have hregular := hac.solution_meets_regular h
  have halike := Term.alike_instantiate (hregular v (h.isRegular ht))
    (hregular.regular_instantiate (h.meets ht)) hτ (hac.solves_solution h v t ht)
  rwa [Term.instantiate_instantiate] at halike

open Classical in
/-- An assignment on the variables of a literal, and null on all others. -/
noncomputable def Assignment.onlyOn (τ : Assignment) (l : Literal) : Assignment :=
  fun v => if v ∈ l.occurrences then τ v else .const .null

theorem Assignment.instantiate_onlyOn (τ : Assignment) (l : Literal) :
    l.instantiate (τ.onlyOn l) = l.instantiate τ :=
  Literal.instantiate_congr fun _ hv => if_pos hv

theorem Assignment.isGround_onlyOn {l : Literal} (hground : (l.instantiate τ).isGround = true)
    (hregular : (l.instantiate τ).meets .regular = true) : (τ.onlyOn l).IsGround where
  regular v _ := by
    unfold onlyOn
    split
    · exact Literal.meets_of_meets_instantiate hregular ‹_›
    · rfl
  ground v := by
    unfold onlyOn
    split
    · refine List.eq_nil_iff_forall_not_mem.2 fun w hw => ?_
      rw [Literal.isGround_iff] at hground
      have hmem := Literal.mem_occurrences_instantiate.2 ⟨v, ‹_›, hw⟩
      rw [hground] at hmem
      cases hmem
    · rfl

/-- Applying the environment to literals puts in its full values. -/
theorem mapM_substitute_eq {θ : Bindings} (hac : θ.Acyclic) (h : θ.Meets .regular)
    (hg : ∀ g ∈ goals, g.meets .regular = true) :
    (goals.map Item.literal).mapM θ.substitute =
      .ok ((goals.map (Literal.instantiate θ.solution)).map .literal) := by
  induction goals with
  | nil => rfl
  | cons goal goals ih =>
    obtain ⟨hgoal, hg⟩ := List.forall_mem_cons.1 hg
    rw [List.map_cons, List.mapM_cons, hac.substitute_literal h hgoal, ok_bind, ih hg]
    rfl

/-- Applying the environment to the goals of a query gives the answers. -/
theorem answer_eq {θ : Bindings} {nodes : List ProofNode} (hac : θ.Acyclic)
    (h : θ.Meets .regular) (hg : ∀ g ∈ goals, g.meets .regular = true) :
    (ProofTree.mk (goals.map .literal) (some (θ, nodes))).answer =
      .ok (some ((goals.map (Literal.instantiate θ.solution)).map .literal)) := by
  show ((goals.map Item.literal).mapM θ.substitute).map some = _
  rw [mapM_substitute_eq hac h hg]
  rfl

/-- **Answers are consequences**: if a query of literals is proved, then every ground
instance of a literal in the answer is in every model of the knowledge base. -/
theorem prove_consequence {settings : Settings} {levels : Nat} {query : Item} {b : Bindings}
    {trail trail' : Trail} {n : Int} {tree : ProofTree} (hkb : kb.Meets .regular)
    (hq : Resolver.goalsOf query = .ok (goals.map .literal))
    (hg : ∀ g ∈ goals, g.meets .regular = true) (hb : b.Meets .regular) (hac : b.Acyclic)
    (htrail : trail.source = ⟨.int n⟩)
    (hprove : Resolver.prove kb settings levels query b trail = (.proved tree, trail'))
    (hvalid : tree.isValid = true) :
    ∃ answers : List Literal, tree.answer = .ok (some (answers.map .literal)) ∧
      ∀ M, IsModel kb M → ∀ a ∈ answers, ∀ l : Literal, l.IsGroundInstance a → l ∈ M := by
  obtain ⟨θ, hvalid⟩ : ∃ θ, tree.bindings? = some θ :=
    Option.isSome_iff_exists.1 (Option.isSome_map.trans hvalid)
  obtain ⟨nodes, k, m, rfl, -, hproved, -⟩ :=
    Resolver.proved_of_valid hkb hq hg hb htrail hprove hvalid
  have hθ := hproved.meets hb
  have hacθ := hproved.acyclic hac
  refine ⟨_, answer_eq hacθ hθ hg, ?_⟩
  rintro M hM a ha l ⟨τ, rfl, hground, hregular⟩
  obtain ⟨goal, hgoal, rfl⟩ := List.mem_map.1 ha
  -- the copies of rules in the tree have variables that the answer has not, so `τ` alone
  -- grounds too little
  let τ' := τ.onlyOn (goal.instantiate θ.solution)
  have hτ' : τ'.IsGround := Assignment.isGround_onlyOn hground hregular
  let σ : Assignment := fun v => (θ.solution v).instantiate τ'
  have hσ : σ.IsGround := by
    refine ⟨fun v hv => ?_, fun v => hτ'.term (θ.solution v)⟩
    exact hτ'.regular.regular_instantiate (hacθ.regular_solution hθ hv)
  have hsolves : Solves σ θ := solves_solution_instantiate hacθ hθ hτ'.regular
  have hcloses := (hproved.closes hkb hσ.regular hsolves).2
  have hmem := hcloses.mem_model hkb hM hσ hg goal hgoal
  have hσgoal : goal.instantiate σ = (goal.instantiate θ.solution).instantiate τ := by
    rw [← Assignment.instantiate_onlyOn τ (goal.instantiate θ.solution)]
    exact Literal.instantiate_instantiate.symm
  rwa [hσgoal] at hmem

open Family in
/-- The descendant that is found once other attempts have failed is a consequence. -/
theorem consequence_family :
    ∃ tree trail, Resolver.prove clauses { maxDepth := some 3 } 9
        (.list (Family.goals.map .literal)) start { source := ⟨.int 5⟩ } = (.proved tree, trail) ∧
      tree.isValid = true ∧ ∀ M, IsModel clauses M → ancestor (person "tom") (person "ann") ∈ M := by
  obtain ⟨tree, trail, hprove, hvalid, hanswer⟩ : ∃ tree trail,
      Resolver.prove clauses { maxDepth := some 3 } 9 (.list (Family.goals.map .literal)) start
        { source := ⟨.int 5⟩ } = (.proved tree, trail) ∧ tree.isValid = true ∧
      tree.answer = .ok (some [.literal (ancestor (person "tom") (person "ann")),
        .literal (parent (person "bob") (person "ann"))]) :=
    ⟨_, _, by cbv, by cbv, by cbv⟩
  refine ⟨tree, trail, hprove, hvalid, fun M hM => ?_⟩
  obtain ⟨answers, hanswers, hmem⟩ := prove_consequence clauses_meets rfl (by decide) start_meets
    start_acyclic rfl hprove hvalid
  have hlist := Option.some.inj (Except.ok.inj (hanswers.symm.trans hanswer))
  obtain ⟨a, rest, rfl⟩ : ∃ a rest, answers = a :: rest := by
    cases answers with
    | nil => cases hlist
    | cons a rest => exact ⟨a, rest, rfl⟩
  obtain rfl := Item.literal.inj (List.cons.inj hlist).1
  refine hmem M hM _ List.mem_cons_self _ ⟨.var, ?_, ?_, ?_⟩
  · exact (Literal.instantiate_of_isGround rfl).symm
  · decide
  · decide

end HornSearch
