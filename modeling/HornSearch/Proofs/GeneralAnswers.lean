/-
HornSearch/Proofs/GeneralAnswers.lean

Answers are as general as their proofs allow.  A proof tree fixes which fact or which copy of
a rule closes each goal, and with that a set of equations, one for each node.  An assignment
that satisfies the starting bindings and all these equations (`ProofNode.ClosedBy`) factors
through the final bindings (`FactorsThrough`): applying them first makes no difference to it.
So every instance of the query that has the same proof is an instance of the answer
(`prove_mostGeneral`).

The equations are solved one after another, each under the bindings of those before, and
`Proved.solves` carries an assignment along: whatever solves the bindings before a step and
the equation of the step solves the bindings after it.  That asks for constants without NaN,
so what a proof is made of has to meet a criterion along with the knowledge base and the query
(`Proved.meetsAll`).
-/
import HornSearch.Proofs.Certificate
import HornSearch.Proofs.Consequence
import HornSearch.Proofs.MostGeneral
import HornSearch.Proofs.SearchCourses

namespace HornSearch

variable {p : Criterion} {kb : KnowledgeBase} {limit : Option Nat} {depth : Nat}
variable {goals : List Literal} {l l' : Literal} {r copy : Rule} {nodes : List ProofNode}
variable {b c θ : Bindings} {n m : Int} {σ : Assignment}

/-! ### What a proof is made of -/

/-- The goal of the node, and the fact or the rule that proves it, meet a criterion. -/
def ProofNode.meets (p : Criterion) : ProofNode → Prop
  | .byFact goal fact _ => goal.meets p = true ∧ fact.meets p = true
  | .byRule goal rule _ _ => goal.meets p = true ∧ rule.meets p = true

theorem Joined.meetsAll (h : Joined l l' b c) (hp : p.Implies .regular) (hl : l.meets p = true)
    (hl' : l'.meets p = true) (hb : b.Meets p) : c.Meets p :=
  unifyLiterals_meets hp.var hp hl hl' hb h.eq

theorem Copied.meetsAll (h : Copied r copy n m)
    (hfresh : ∀ v ∈ copy.occurrences, v.isRegular = true → p.var v = true)
    (hr : r.meets p = true) : copy.meets p = true := by
  obtain ⟨ρ, rfl, -, -⟩ := h.exists_freshens
  refine Rule.meets_rename (fun v hv => ?_) hr
  have hmem : ρ v ∈ (r.rename ρ).occurrences := Rule.mem_occurrences_rename.2 ⟨v, hv, rfl⟩
  exact hfresh _ hmem (Rule.var_of_mem_occurrences (p := .regular) h.copy_regular hmem)

/-- **Proofs add no syntax**: the bindings in the end and every node meet what the knowledge
base, the goals and the bindings in the beginning meet, if the variables of the copies do. -/
theorem Proved.meetsAll (hp : p.Implies .regular) (hkb : kb.Meets p)
    (h : Proved kb limit depth goals b n c nodes m)
    (hfresh : ∀ copy ∈ ProofNode.rulesOf nodes, ∀ v ∈ copy.occurrences,
      v.isRegular = true → p.var v = true)
    (hg : ∀ g ∈ goals, g.meets p = true) (hb : b.Meets p) :
    c.Meets p ∧ ∀ node ∈ ProofNode.allOf nodes, node.meets p := by
  induction h with
  | nil _ => exact ⟨hb, by simp [ProofNode.allOf]⟩
  | @fact depth goal fact goals b c d nodes n m _ hfact hu _ ih =>
    obtain ⟨hgoal, hg⟩ := List.forall_mem_cons.1 hg
    rw [ProofNode.rulesOf_byFact] at hfresh
    have hf := (hkb.facts fact hfact).1
    obtain ⟨hd, hnodes⟩ := ih hfresh hg (hu.meetsAll hp hgoal hf hb)
    rw [ProofNode.allOf, ProofNode.all, List.forall_mem_append, List.forall_mem_singleton]
    exact ⟨hd, ⟨hgoal, hf⟩, hnodes⟩
  | @rule depth goal goals rule copy b c d e children nodes n i j k m _ hrule _ hcopy hu _ _
      ihbody ih =>
    obtain ⟨hgoal, hg⟩ := List.forall_mem_cons.1 hg
    rw [ProofNode.rulesOf_byRule] at hfresh
    obtain ⟨hfreshCopy, hfresh⟩ := List.forall_mem_cons.1 hfresh
    obtain ⟨hfreshChildren, hfresh⟩ := List.forall_mem_append.1 hfresh
    have hmeets := hcopy.meetsAll hfreshCopy (hkb.rules rule hrule)
    obtain ⟨hhead, hbody⟩ := Rule.meets_iff.1 hmeets
    obtain ⟨hd, hchildren⟩ := ihbody hfreshChildren hbody (hu.meetsAll hp hgoal hhead hb)
    obtain ⟨he, hnodes⟩ := ih hfresh hg hd
    rw [ProofNode.allOf, ProofNode.all, List.forall_mem_append, List.forall_mem_cons]
    exact ⟨he, ⟨⟨hgoal, hmeets⟩, hchildren⟩, hnodes⟩

/-! ### Solving the equations of a proof -/

/-- The assignment makes the goal of the node the fact that closes it, or makes it equal to
the head of the copy of a rule that does. -/
def ProofNode.ClosedBy (σ : Assignment) : ProofNode → Prop
  | .byFact goal fact _ => (goal.instantiate σ == fact) = true
  | .byRule goal rule _ _ => (goal.instantiate σ == rule.head.instantiate σ) = true

/-- Whatever solves the bindings before a step and makes its literals equal solves the
bindings after it. -/
theorem Joined.solves (h : Joined l l' b c) (hl : l.meets .definite = true)
    (hl' : l'.meets .definite = true) (hb : b.Meets .definite) (hac : b.Acyclic)
    (hσ : σ.Meets .regular) (hs : Solves σ b)
    (heq : (l.instantiate σ == l'.instantiate σ) = true) : Solves σ c := by
  have halike := Literal.beq_iff_alike.1 heq
  rw [Literal.asTerm_instantiate, Literal.asTerm_instantiate] at halike
  have hequal : Equalizes σ [(l.asTerm, l'.asTerm)] :=
    equalizes_cons.2 ⟨halike, by simp [Equalizes]⟩
  obtain ⟨c', hc', hs'⟩ :=
    h.unified.complete (.single (fun _ h => h) hl hl' hb) hac hσ hs hequal
  obtain rfl := Option.some.inj hc'
  exact hs'

/-- **The equations of a proof determine its bindings**: whatever solves the bindings in the
beginning and closes every node solves the bindings in the end. -/
theorem Proved.solves (hkb : kb.Meets .definite)
    (h : Proved kb limit depth goals b n c nodes m) (hg : ∀ g ∈ goals, g.meets .definite = true)
    (hb : b.Meets .definite) (hac : b.Acyclic) (hσ : σ.Meets .regular) (hs : Solves σ b)
    (hclosed : ∀ node ∈ ProofNode.allOf nodes, node.ClosedBy σ) : Solves σ c := by
  have hp := Criterion.definite_implies_regular
  induction h with
  | nil _ => exact hs
  | @fact depth goal fact goals b c d nodes n m _ hfact hu _ ih =>
    obtain ⟨hgoal, hg⟩ := List.forall_mem_cons.1 hg
    obtain ⟨hf, hground⟩ := hkb.facts fact hfact
    rw [ProofNode.allOf, ProofNode.all, List.forall_mem_append, List.forall_mem_singleton]
      at hclosed
    obtain ⟨heq, hrest⟩ := hclosed
    rw [ProofNode.ClosedBy, ← Literal.instantiate_of_isGround (σ := σ) hground] at heq
    have hsc := hu.solves hgoal hf hb hac hσ hs heq
    exact ih hg (hu.meetsAll hp hgoal hf hb) (hu.acyclic hac) hsc hrest
  | @rule depth goal goals rule copy b c d e children nodes n i j k m _ hrule _ hcopy hu hproved
      _ ihbody ih =>
    obtain ⟨hgoal, hg⟩ := List.forall_mem_cons.1 hg
    obtain ⟨hhead, hbody⟩ := Rule.meets_iff.1
      (hcopy.meetsAll (fun _ _ hv => hv) (hkb.rules rule hrule))
    rw [ProofNode.allOf, ProofNode.all, List.forall_mem_append, List.forall_mem_cons] at hclosed
    obtain ⟨⟨heq, hchildren⟩, hrest⟩ := hclosed
    have hc := hu.meetsAll hp hgoal hhead hb
    have hsc := hu.solves hgoal hhead hb hac hσ hs heq
    -- the children go on from the bindings of this step, the goals after it from theirs
    have hsd := ihbody hbody hc (hu.acyclic hac) hsc hchildren
    have hd := (hproved.meetsAll hp hkb (fun _ _ _ _ hv => hv) hbody hc).1
    exact ih hg hd (hproved.acyclic (hu.acyclic hac)) hsd hrest

/-! ### Answers -/

/-- Applying the bindings first makes no difference to the assignment.  A NaN equals nothing,
so where one is assigned the two results are only said to be alike. -/
structure FactorsThrough (σ : Assignment) (θ : Bindings) : Prop where
  alike : ∀ v, v.isRegular = true →
    ∃ t, θ.substitute (.ofVariable v) = .ok (.term t) ∧ Term.Alike (σ v) (t.instantiate σ)
  equal : ∀ v, v.isRegular = true → (σ v).meets .definite = true →
    ∃ t, θ.substitute (.ofVariable v) = .ok (.term t) ∧ (σ v == t.instantiate σ) = true

theorem Solves.factorsThrough (hs : Solves σ θ) (hac : θ.Acyclic) (hθ : θ.Meets .regular)
    (hσ : σ.Meets .regular) : FactorsThrough σ θ where
  alike v hv := ⟨_, hac.substitute_term hθ (t := .var v) hv, hs.alike_solution hac hθ hσ hv⟩
  equal v hv hdefinite := by
    refine ⟨_, hac.substitute_term hθ (t := .var v) hv, ?_⟩
    exact (Term.beq_iff_alike hdefinite).2 (hs.alike_solution hac hθ hσ hv)

/-- A solution of the bindings gives a literal what it gives the literal with the bindings
applied. -/
theorem Solves.literal_beq (hs : Solves σ θ) (hac : θ.Acyclic) (hθ : θ.Meets .regular)
    (hσ : σ.Meets .regular) (hl : l.meets .regular = true) :
    (l.instantiate σ == (l.instantiate θ.solution).instantiate σ) = true := by
  rw [Literal.beq_iff_alike, Literal.asTerm_instantiate, Literal.asTerm_instantiate,
    Literal.asTerm_instantiate]
  exact hs.alike_instantiate_solution hac hθ hσ hl

/-- **The answer is the most general one for its proof**: if a query of literals is proved,
then every assignment that satisfies the starting bindings and closes each node of the tree
factors through the final bindings, and makes the goals instances of the answers. -/
theorem prove_mostGeneral {settings : Settings} {levels : Nat} {query : Item}
    {trail trail' : Trail} {tree : ProofTree} (hkb : kb.Meets .definite)
    (hq : Resolver.goalsOf query = .ok (goals.map .literal))
    (hg : ∀ g ∈ goals, g.meets .definite = true) (hb : b.Meets .definite) (hac : b.Acyclic)
    (htrail : trail.source = ⟨.int n⟩)
    (hprove : Resolver.prove kb settings levels query b trail = (.proved tree, trail'))
    (hvalid : tree.bindings? = some θ) :
    ∃ answers : List Literal, tree.answer = .ok (some (answers.map .literal)) ∧
      ∀ σ : Assignment, σ.Meets .regular → Respects σ b →
        (∀ node ∈ ProofNode.allOf tree.nodes, node.ClosedBy σ) →
        FactorsThrough σ θ ∧
          List.Forall₂ (fun goal a => (goal.instantiate σ == a.instantiate σ) = true)
            goals answers := by
  have hregular : ∀ g ∈ goals, g.meets .regular = true :=
    fun g hmem => Literal.meets_regular_of_definite (hg g hmem)
  obtain ⟨nodes, k, m, rfl, -, hproved, -⟩ := Resolver.proved_of_valid
    (hkb.mono Criterion.definite_implies_regular) hq hregular hb.regular htrail hprove hvalid
  have hθ := hproved.meets hb.regular
  have hacθ := hproved.acyclic hac
  refine ⟨_, answer_eq hacθ hθ hregular, fun σ hσ hrespects hclosed => ?_⟩
  have hsolves : Solves σ b := by
    intro v t ht
    have heq : Term.equals (σ v) (t.instantiate σ) = true := hrespects v t ht
    exact Bool.or_eq_true_iff.2 (.inr heq)
  have hs := hproved.solves hkb hg hb hac hσ hsolves hclosed
  refine ⟨hs.factorsThrough hacθ hθ hσ, List.forall₂_map_right_iff.2 (List.forall₂_same.2 ?_)⟩
  exact fun g hmem => hs.literal_beq hacθ hθ hσ (hregular g hmem)

namespace Family

/-- Parents own boxes, whatever is in them. -/
def boxes : KnowledgeBase := .ofList [
  .fact (parent (person "tom") (person "bob")),
  .rule ⟨⟨.str "owns", [someone "X", .app (.str "box") [someone "X", someone "Y"]]⟩,
    [parent (someone "X") (someone "Z")]⟩]

/-- Who owns what. -/
def owners : List Literal := [⟨.str "owns", [someone "A", someone "B"]⟩]

/-- The box of tom, with an apple in it. -/
def withApple : Assignment
  | ⟨.str "B", _⟩ => .app (.str "box") [person "tom", person "apple"]
  | ⟨.str "Y", _⟩ => person "apple"
  | ⟨.str "Z", _⟩ => person "bob"
  | _ => person "tom"

theorem boxes_meets : boxes.Meets .definite where
  facts := by decide
  rules := by decide

theorem withApple_meets : withApple.Meets .regular := by
  intro v _
  unfold withApple
  split <;> rfl

end Family

open Family in
/-- The answer leaves open what is in the box of tom; the box with an apple in it is an
instance of the answer. -/
theorem mostGeneral_boxes : ∃ tree trail θ answers,
    Resolver.prove boxes {} 9 (.list (owners.map .literal)) ⟨[]⟩ { source := ⟨.int 5⟩ } =
      (.proved tree, trail) ∧ tree.bindings? = some θ ∧
    tree.answer = .ok (some (answers.map .literal)) ∧
    answers = [⟨.str "owns", [person "tom",
      .app (.str "box") [person "tom", .var ⟨.str "Y", .int 5⟩]]⟩] ∧
    FactorsThrough withApple θ ∧
    List.Forall₂ (fun goal a => (goal.instantiate withApple == a.instantiate withApple) = true)
      owners answers := by
  obtain ⟨tree, trail, θ, hprove, hvalid, hanswer, hclosed⟩ : ∃ tree trail θ,
      Resolver.prove boxes {} 9 (.list (owners.map .literal)) ⟨[]⟩ { source := ⟨.int 5⟩ } =
        (.proved tree, trail) ∧ tree.bindings? = some θ ∧
      tree.answer = .ok (some [.literal ⟨.str "owns", [person "tom",
        .app (.str "box") [person "tom", .var ⟨.str "Y", .int 5⟩]]⟩]) ∧
      ∀ node ∈ ProofNode.allOf tree.nodes, node.ClosedBy withApple :=
    ⟨_, _, _, by cbv, by cbv, by cbv, by
      rw [← List.forall_iff_forall_mem]
      cbv⟩
  have hstart : (⟨[]⟩ : Bindings).Meets .definite := ⟨by simp, List.nodup_nil⟩
  have hacyclic : (⟨[]⟩ : Bindings).Acyclic :=
    Bindings.acyclic_of_rank (fun _ => 0) (by rintro v w ⟨t, ht, -⟩; cases ht)
  obtain ⟨answers, hanswers, hgeneral⟩ :=
    prove_mostGeneral boxes_meets rfl (by decide) hstart hacyclic rfl hprove hvalid
  have hrespects : Respects withApple ⟨[]⟩ := by
    rintro v t ht
    cases ht
  have hall := hgeneral withApple withApple_meets hrespects hclosed
  refine ⟨tree, trail, θ, answers, hprove, hvalid, hanswers, ?_, hall⟩
  have hsame := Option.some.inj (Except.ok.inj (hanswer.symm.trans hanswers))
  simpa [List.map_eq_singleton_iff] using hsame.symm

end HornSearch
