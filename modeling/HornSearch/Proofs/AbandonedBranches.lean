/-
HornSearch/Proofs/AbandonedBranches.lean

What becomes of the branches of a search that are given up.  Many rules may be copied, unified
and partly proved before the search turns away from them; all of that is in the journal, and
none of it is in the bindings that a proof ends with (`prove_abandons`).

There are two sides to it.  Bindings come from the proof alone: whatever holds of the variables
of the goals, of the starting bindings and of the copies in the tree holds of all variables
that are bound or occur in a value (`Proved.holdsOf`).  And the copies in the tree are selected
from those that the journal has, in order (`makes_prove`), which have no variables in
common; so a copy that is not among the selected ones has none in common with the bindings.
-/
import HornSearch.Proofs.Certificate
import HornSearch.Proofs.Outcomes

namespace HornSearch

variable {α β : Type} {kb : KnowledgeBase} {settings : Settings} {levels depth : Nat}
variable {limit : Option Nat} {goals : List Literal} {nodes : List ProofNode}
variable {b c θ : Bindings} {n m : Int}

/-! ### Bindings come from the proof -/

/-- **A proof brings only its own variables into play**: those of its goals, of the copies of
rules in it, and of the bindings that it starts from. -/
theorem Proved.holdsOf {P : Variable → Prop} (hkb : kb.Meets .regular)
    (h : Proved kb limit depth goals b n c nodes m) (hg : ∀ g ∈ goals, ∀ v ∈ g.occurrences, P v)
    (hr : ∀ r ∈ ProofNode.rulesOf nodes, ∀ v ∈ r.occurrences, P v)
    (hb : ∀ v t, b.Binds v t → P v ∧ ∀ w ∈ t.occurrences, P w) :
    ∀ v t, c.Binds v t → P v ∧ ∀ w ∈ t.occurrences, P w := by
  induction h with
  | nil _ => exact hb
  | @fact depth goal fact goals b c d nodes n m _ hfact hu _ ih =>
    obtain ⟨hgoal, hg⟩ := List.forall_mem_cons.1 hg
    rw [ProofNode.rulesOf_byFact] at hr
    have hground : ∀ v ∈ fact.occurrences, P v := by
      simp [Literal.isGround_iff.1 (hkb.facts fact hfact).2]
    exact ih hg hr (hu.holdsOf hgoal hground hb)
  | @rule depth goal goals rule copy b c d e children nodes n i j k m _ _ _ _ hu _ _ ihbody ih =>
    obtain ⟨hgoal, hg⟩ := List.forall_mem_cons.1 hg
    rw [ProofNode.rulesOf_byRule] at hr
    obtain ⟨hcopy, hr⟩ := List.forall_mem_cons.1 hr
    obtain ⟨hchildren, hr⟩ := List.forall_mem_append.1 hr
    have hhead : ∀ v ∈ copy.head.occurrences, P v :=
      fun v hv => hcopy v (Rule.mem_occurrences.2 (.inl hv))
    have hbody : ∀ l ∈ copy.body, ∀ v ∈ l.occurrences, P v :=
      fun l hl v hv => hcopy v (Rule.mem_occurrences.2 (.inr ⟨l, hl, hv⟩))
    exact ih hg hr (ihbody hbody hchildren (hu.holdsOf hgoal hhead hb))

/-! ### The copies that a search makes -/

namespace Step

/-- The copy of a rule that is made in the step. -/
def copy? : Step → Option Rule
  | .visited _ _ _ => none
  | .copied _ _ _ copy => some copy

/-- The copies of rules that are made, in order. -/
def copiesOf (steps : List Step) : List Rule := steps.filterMap copy?

@[simp] theorem copiesOf_nil : copiesOf [] = [] := rfl

@[simp] theorem copiesOf_append (steps steps' : List Step) :
    copiesOf (steps ++ steps') = copiesOf steps ++ copiesOf steps' :=
  List.filterMap_append

theorem fresh_of_copy? {s : Step} {r : Rule} (h : s.copy? = some r) : s.fresh = r.occurrences := by
  cases s with
  | visited => cases h
  | copied =>
    obtain rfl := Option.some.inj h
    rfl

theorem exists_of_mem_copiesOf {steps : List Step} {r : Rule} (h : r ∈ copiesOf steps) :
    ∃ s ∈ steps, s.fresh = r.occurrences := by
  obtain ⟨s, hs, hr⟩ := List.mem_filterMap.1 h
  exact ⟨s, hs, fresh_of_copy? hr⟩

end Step

/-- Copies in an orderly journal have no variables in common. -/
theorem Orderly.disjoint {steps : List Step} (h : Orderly n m steps) :
    (Step.copiesOf steps).Pairwise fun r s => ∀ v ∈ r.occurrences, v ∉ s.occurrences := by
  refine List.pairwise_filterMap.2 (h.rising.imp fun {s t} hst r hr r' hr' v hv hv' => ?_)
  rw [Step.fresh_of_copy? hr, Step.fresh_of_copy? hr'] at hst
  exact (hst v hv v hv').ne rfl

/-- A copy that is made shares a variable with no other copy that is made. -/
theorem Orderly.eq_of_mem {steps : List Step} (h : Orderly n m steps) {r s : Rule}
    (hr : r ∈ Step.copiesOf steps) (hs : s ∈ Step.copiesOf steps) {v : Variable}
    (hvr : v ∈ r.occurrences) (hvs : v ∈ s.occurrences) : r = s := by
  have : Std.Symm fun r s : Rule => ∀ v ∈ r.occurrences, v ∉ s.occurrences :=
    ⟨fun _ _ hrs v hv hv' => hrs v hv' hv⟩
  by_contra hne
  exact h.disjoint.forall hr hs hne v hvr hvs

/-- What the computation proves is so, given the copies that it makes on the way. -/
def Makes (s : Journaled α) (P : List Rule → α → Prop) : Prop :=
  ∀ trail a, (s.erase trail).1 = .proved a → P (Step.copiesOf (s.steps trail)) a

section Rules

open Journaled

variable {P : List Rule → α → Prop} {Q : List Rule → β → Prop} {s other : Journaled α}

theorem makes_lift {t : Search α} (h : ∀ trail a, (t trail).1 = .proved a → P [] a) :
    Makes (lift t) P :=
  h

theorem makes_pure {a : α} (h : P [] a) : Makes (pure a) P := by
  rintro trail _ ⟨⟩
  exact h

theorem makes_visited (goal : Literal) (depth : Nat) (b : Bindings) :
    Makes (note (.visited goal depth b)) fun rs _ => rs = [] :=
  fun _ _ _ => rfl

theorem Makes.bind {next : α → Journaled β} (hs : Makes s P)
    (hnext : ∀ rs a, P rs a → Makes (next a) fun rs' r => Q (rs ++ rs') r) :
    Makes (s >>= next) Q := by
  intro trail r hr
  change (Journaled.bind s next trail).1.1 = .proved r at hr
  show Q (Step.copiesOf (Journaled.bind s next trail).2) r
  have hP := hs trail
  unfold erase steps at hP
  rcases e : s trail with ⟨⟨a | - | fault, trail'⟩, js⟩
  · rw [e] at hP
    simp only [Journaled.bind, e] at hr ⊢
    rw [Step.copiesOf_append]
    exact hnext _ a (hP a rfl) trail' r hr
  · simp [Journaled.bind, e] at hr
  · simp [Journaled.bind, e] at hr

/-- What is lifted makes no copies. -/
theorem Makes.lift_bind {t : Search α} {next : α → Journaled β} (h : ∀ a, Makes (next a) Q) :
    Makes (lift t >>= next) Q := by
  refine Makes.bind (P := fun rs _ => rs = []) (makes_lift fun _ _ _ => rfl) ?_
  rintro _ a rfl
  exact h a

theorem Makes.recordIf {condition : Bool} {event : Event} (hs : Makes s P) :
    Makes (do
      if condition then lift (Search.record event)
      s) P := by
  cases condition with
  | false => exact hs
  | true => exact Makes.lift_bind fun _ => hs

theorem makes_copy (goal : Literal) (pending : List Item) (b : Bindings) (rule : Rule) :
    Makes (copy goal pending b rule) fun rs copy => rs = [copy] := by
  refine Makes.lift_bind fun copy => ?_
  have hnote : Makes (note (.copied goal pending b copy)) fun rs _ => rs = [copy] :=
    fun _ _ _ => rfl
  refine hnote.bind ?_
  rintro _ - rfl
  exact makes_pure rfl

/-- Copies that a computation makes before it fails come before those of the other one. -/
theorem Makes.orElse (hs : Makes s P) (hother : Makes other P)
    (hmono : ∀ rs rs' a, P rs' a → P (rs ++ rs') a) : Makes (Journaled.orElse s other) P := by
  intro trail a ha
  have hP := hs trail
  unfold erase steps at *
  rcases e : s trail with ⟨⟨a' | - | fault, trail'⟩, js⟩
  · rw [e] at hP
    simp only [Journaled.orElse, e] at ha ⊢
    exact hP a ha
  · simp only [Journaled.orElse, e] at ha ⊢
    rw [Step.copiesOf_append]
    exact hmono _ _ a (hother trail' a ha)
  · simp [Journaled.orElse, e] at ha

end Rules

/-! ### The copies that a proof keeps -/

section Solver

open Journaled

/-- The copies in the node of a goal are selected from those that the solver makes. -/
def SelectsOne (solver : Literal → List Item → Bindings → Journaled (Bindings × ProofNode)) :
    Prop :=
  ∀ goal pending b, Makes (solver goal pending b) fun rs r =>
    (ProofNode.rulesOf [r.2]).Sublist rs

/-- The copies in the nodes of goals are selected from those that the solver makes. -/
def SelectsAll (solver : List Literal → Bindings → Journaled (Bindings × List ProofNode)) :
    Prop :=
  ∀ goals b, Makes (solver goals b) fun rs r => (ProofNode.rulesOf r.2).Sublist rs

theorem selectsAll_solveAll
    {solver : Literal → List Item → Bindings → Journaled (Bindings × ProofNode)}
    (h : SelectsOne solver) (pending : List Item) :
    SelectsAll (Journaled.solveAll solver pending) := by
  intro goals
  induction goals with
  | nil => exact fun b => makes_pure (by simp)
  | cons goal goals ih =>
    intro b
    refine (h goal _ b).bind ?_
    rintro rs ⟨c, node⟩ hnode
    refine (ih c).bind ?_
    rintro rs' ⟨d, nodes⟩ hnodes
    refine makes_pure ?_
    rw [ProofNode.rulesOf_cons, List.append_nil]
    exact hnode.append hnodes

theorem makes_solveByRule
    {solveBody : List Literal → Bindings → Journaled (Bindings × List ProofNode)}
    (hbody : SelectsAll solveBody) (goal : Literal) (pending : List Item) (b : Bindings)
    (rule : Rule) :
    Makes (Journaled.solveByRule settings solveBody goal depth pending b rule) fun rs r =>
      (ProofNode.rulesOf [r.2]).Sublist rs := by
  refine (makes_copy goal pending b rule).bind ?_
  rintro _ copy rfl
  refine Makes.lift_bind fun unified => Makes.recordIf ?_
  cases unified with
  | none => exact makes_lift fun _ _ h => by cases h
  | some c =>
    refine (hbody copy.body c).bind ?_
    rintro rs ⟨d, children⟩ hchildren
    refine makes_pure ?_
    simpa using hchildren.cons_cons copy

theorem makes_solveByRules
    {solveBody : List Literal → Bindings → Journaled (Bindings × List ProofNode)}
    (hbody : SelectsAll solveBody) (goal : Literal) (pending : List Item) (b : Bindings)
    (rules : List Rule) :
    Makes (Journaled.solveByRules settings solveBody goal depth pending b rules) fun rs r =>
      (ProofNode.rulesOf [r.2]).Sublist rs := by
  induction rules with
  | nil => exact Makes.lift_bind fun _ => makes_lift fun _ _ h => by cases h
  | cons rule rules ih =>
    rw [Journaled.solveByRules]
    split
    -- the copies of a rule that fails are passed over
    · exact (makes_solveByRule hbody goal pending b rule).orElse ih
        fun rs rs' a h => h.trans (List.sublist_append_right rs rs')
    · exact ih

theorem selectsOne_solve (kb : KnowledgeBase) (settings : Settings) (levels depth : Nat) :
    SelectsOne (Journaled.solve kb settings levels depth) := by
  induction levels generalizing depth with
  | zero =>
    intro goal pending b
    refine (makes_visited goal depth b).bind ?_
    rintro _ - rfl
    exact Makes.lift_bind fun _ => makes_lift fun _ _ h => by cases h
  | succ levels ih =>
    intro goal pending b
    refine (makes_visited goal depth b).bind ?_
    rintro _ - rfl
    refine Makes.lift_bind fun _ => Makes.lift_bind fun _ => Makes.lift_bind fun found => ?_
    cases found with
    | none =>
      have hbody := selectsAll_solveAll (ih (depth + 1)) pending
      exact makes_solveByRules hbody goal pending b _
    | some match? => exact Makes.lift_bind fun _ => makes_pure (by simp)

theorem makes_proveFrom (kb : KnowledgeBase) (settings : Settings) (levels : Nat)
    (goals : List Literal) (b : Bindings) :
    Makes (proveFrom kb settings levels goals b) fun rs tree =>
      (ProofNode.rulesOf tree.nodes).Sublist rs := by
  have hsolve := selectsAll_solveAll (selectsOne_solve kb settings levels 0) [] goals b
  rw [← solveGoals_eq] at hsolve
  refine Makes.orElse ?_ ?_ fun rs rs' a h => h.trans (List.sublist_append_right rs rs')
  · refine hsolve.bind fun rs proof h => makes_pure ?_
    simpa [ProofTree.nodes] using h
  · refine makes_lift fun trail tree h => ?_
    obtain ⟨_, _, hreturned⟩ := Search.exists_of_bind h
    obtain rfl := Outcome.proved.inj hreturned
    simp [ProofTree.nodes]

/-- **The copies in a proof tree** are, in order, some of those that the search has made. -/
theorem makes_prove (kb : KnowledgeBase) (settings : Settings) (levels : Nat) {query : Item}
    (hq : Resolver.goalsOf query = .ok (goals.map .literal)) (b : Bindings) :
    Makes (Journaled.prove kb settings levels query b) fun rs tree =>
      (ProofNode.rulesOf tree.nodes).Sublist rs := by
  have hgoals : Makes (lift (Search.ofChecked (Resolver.goalsOf query))) fun rs is =>
      rs = [] ∧ is = goals.map .literal :=
    makes_lift fun _ _ h => ⟨rfl, Except.ok.inj ((Search.ofChecked_eq_proved h).symm.trans hq)⟩
  refine hgoals.bind ?_
  rintro _ _ ⟨rfl, rfl⟩
  refine Makes.lift_bind fun _ => Makes.lift_bind fun _ => ?_
  exact makes_proveFrom kb settings levels goals b

end Solver

/-! ### Queries -/

/-- A variable of the goals, of the starting bindings, or of a copy of a rule in the tree. -/
def IsInProof (goals : List Literal) (b : Bindings) (nodes : List ProofNode) (v : Variable) :
    Prop :=
  (∃ g ∈ goals, v ∈ g.occurrences) ∨ b.Mentions v ∨
    ∃ r ∈ ProofNode.rulesOf nodes, v ∈ r.occurrences

/-- A proof ends with the bindings that it starts from, and others between variables that are
in the proof. -/
theorem Proved.isInProof (hkb : kb.Meets .regular)
    (h : Proved kb limit depth goals b n c nodes m) {v : Variable} (hv : c.Mentions v) :
    IsInProof goals b nodes v := by
  have hbinds := h.holdsOf (P := IsInProof goals b nodes) hkb
    (fun g hg v hv => .inl ⟨g, hg, hv⟩) (fun r hr v hv => .inr (.inr ⟨r, hr, hv⟩))
    (fun v t ht => ⟨.inr (.inl ⟨v, t, ht, .inl rfl⟩),
      fun w hw => .inr (.inl ⟨v, t, ht, .inr hw⟩)⟩)
  obtain ⟨w, t, ht, rfl | hv⟩ := hv
  · exact (hbinds v t ht).1
  · exact (hbinds w t ht).2 v hv

/-- **Abandoned branches leave nothing behind**: if a query of literals is proved, then its
bindings are the starting ones and others after them, which have only variables that are in the
proof; and a copy of a rule that was made on the way and is not in the tree has no variable in
them. -/
theorem prove_abandons {query : Item} {trail trail' : Trail} {tree : ProofTree}
    (hkb : kb.Meets .regular) (hq : Resolver.goalsOf query = .ok (goals.map .literal))
    (hg : ∀ g ∈ goals, g.meets .regular = true) (hb : b.Meets .regular)
    (htrail : trail.source = ⟨.int n⟩)
    (hprove : Resolver.prove kb settings levels query b trail = (.proved tree, trail'))
    (hvalid : tree.bindings? = some θ) :
    (∃ added, θ.entries = b.entries ++ added ∧ ∀ e ∈ added, ∃ v t,
      e = (.ofVariable v, .term t) ∧ ∀ w ∈ v :: t.occurrences, IsInProof goals b tree.nodes w) ∧
    ∀ copy ∈ Step.copiesOf ((Journaled.prove kb settings levels query b).steps trail),
      copy ∉ ProofNode.rulesOf tree.nodes → ∀ v ∈ copy.occurrences, ¬ θ.Mentions v := by
  obtain ⟨nodes, k, m, rfl, hstart, hproved, horderly, -⟩ :=
    Resolver.proved_of_valid hkb hq hg hb htrail hprove hvalid
  have hkept : (ProofNode.rulesOf nodes).Sublist
      (Step.copiesOf ((Journaled.prove kb settings levels query b).steps trail)) := by
    refine makes_prove kb settings levels hq b trail ⟨goals.map .literal, some (θ, nodes)⟩ ?_
    rw [Journaled.erase_prove, hprove]
  obtain ⟨added, hadded⟩ := hproved.isPrefix
  refine ⟨⟨added, hadded.symm, fun e he => ?_⟩, fun copy hcopy hnot v hv hmentions => ?_⟩
  · have he' : e ∈ θ.entries := hadded ▸ List.mem_append_right _ he
    obtain ⟨v, t, rfl, -, -⟩ := (hproved.meets hb).typed e he'
    refine ⟨v, t, rfl, fun w hw => hproved.isInProof hkb ⟨v, t, he', ?_⟩⟩
    exact List.mem_cons.1 hw
  · obtain ⟨s, hs, hfresh⟩ := Step.exists_of_mem_copiesOf hcopy
    have hdrawn : v.AtLeast k := (horderly.drawn s hs v (hfresh ▸ hv)).1
    -- what was in play at the start is below the copies, and kept copies are other ones
    rcases hproved.isInProof hkb hmentions with ⟨g, hg', hvg⟩ | hvb | ⟨r, hr, hvr⟩
    · exact (((hstart.goals_within g hg').below v hvg).before hdrawn).ne rfl
    · exact ((hstart.bindings_within.below_of_mentions hvb).before hdrawn).ne rfl
    · exact hnot (horderly.eq_of_mem hcopy (hkept.subset hr) hv hvr ▸ hr)

open Family in
/-- Of five copies that are made two are in the tree, and only these have variables in the
bindings. -/
theorem abandons_family : ∃ tree trail θ,
    Resolver.prove clauses {} 9 (.list (Family.goals.map .literal)) start
      { source := ⟨.int 5⟩ } = (.proved tree, trail) ∧ tree.bindings? = some θ ∧
    (Step.copiesOf ((Journaled.prove clauses {} 9 (.list (Family.goals.map .literal)) start).steps
      { source := ⟨.int 5⟩ })).length = 5 ∧ (ProofNode.rulesOf tree.nodes).length = 2 ∧
    (∃ added, θ.entries = start.entries ++ added ∧ ∀ e ∈ added, ∃ v t,
      e = (.ofVariable v, .term t) ∧
        ∀ w ∈ v :: t.occurrences, IsInProof Family.goals start tree.nodes w) ∧
    ∀ copy ∈ Step.copiesOf ((Journaled.prove clauses {} 9 (.list (Family.goals.map .literal))
        start).steps { source := ⟨.int 5⟩ }),
      copy ∉ ProofNode.rulesOf tree.nodes → ∀ v ∈ copy.occurrences, ¬ θ.Mentions v := by
  obtain ⟨tree, trail, θ, hprove, hvalid, hcopies, hrules⟩ : ∃ tree trail θ,
      Resolver.prove clauses {} 9 (.list (Family.goals.map .literal)) start
        { source := ⟨.int 5⟩ } = (.proved tree, trail) ∧ tree.bindings? = some θ ∧
      (Step.copiesOf ((Journaled.prove clauses {} 9 (.list (Family.goals.map .literal))
        start).steps { source := ⟨.int 5⟩ })).length = 5 ∧
      (ProofNode.rulesOf tree.nodes).length = 2 :=
    ⟨_, _, _, by cbv, by cbv, by cbv, by cbv⟩
  have h := prove_abandons clauses_meets rfl (by decide) start_meets rfl hprove hvalid
  exact ⟨tree, trail, θ, hprove, hvalid, hcopies, hrules, h⟩

end HornSearch
