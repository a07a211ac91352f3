/-
HornSearch/Proofs/RelevantClauses.lean

The clauses that a search looks at.  A predicate is relevant to some goals if it is one of
theirs, or is in the body of a rule for a relevant predicate (`Relevant`).  The search passes
over all facts and rules for other predicates without a trace: no serial is drawn for them, no
binding is made and no event is recorded (`firstMatch_factsAbout`, `solveByRules_rulesAbout`).

So two knowledge bases that have the same facts and the same rules for each relevant predicate
give the same search (`prove_relevant`), however the predicates are mixed in them and whatever
else they have.  The two searches are one computation: nothing is asked of the goals, the
bindings or the trail.
-/
import HornSearch.Proofs.Levels
import HornSearch.Proofs.ProvedGoals
import Mathlib.Data.List.Permutation

namespace HornSearch

variable {kb kb₁ kb₂ : KnowledgeBase} {goals : List Literal} {p : Value}

/-! ### Clauses by predicate -/

namespace KnowledgeBase

/-- The facts for a predicate, in order. -/
def factsAbout (kb : KnowledgeBase) (p : Value) : List Literal :=
  kb.facts.filter fun fact => p.equals fact.predicate

/-- The rules for a predicate, in order. -/
def rulesAbout (kb : KnowledgeBase) (p : Value) : List Rule :=
  kb.rules.filter fun rule => rule.head.predicate.equals p

end KnowledgeBase

/-- The predicates that a search for some goals can come to. -/
inductive Relevant (kb : KnowledgeBase) (goals : List Literal) : Value → Prop where
  | goal {g : Literal} : g ∈ goals → Relevant kb goals g.predicate
  | body {p : Value} {rule : Rule} {l : Literal} :
      Relevant kb goals p → rule ∈ kb.rulesAbout p → l ∈ rule.body → Relevant kb goals l.predicate

/-- Two knowledge bases have the same facts and the same rules, in order, for each predicate
that is relevant to some goals. -/
def SameRelevant (kb₁ kb₂ : KnowledgeBase) (goals : List Literal) : Prop :=
  ∀ p, Relevant kb₁ goals p →
    kb₁.factsAbout p = kb₂.factsAbout p ∧ kb₁.rulesAbout p = kb₂.rulesAbout p

theorem Relevant.of_same (hsame : SameRelevant kb₁ kb₂ goals) (h : Relevant kb₂ goals p) :
    Relevant kb₁ goals p := by
  induction h with
  | goal hg => exact .goal hg
  | body _ hrule hl ih =>
    rw [← (hsame _ ih).2] at hrule
    exact .body ih hrule hl

/-- Which of the two says what is relevant makes no difference. -/
theorem SameRelevant.symm (hsame : SameRelevant kb₁ kb₂ goals) : SameRelevant kb₂ kb₁ goals := by
  intro p hp
  obtain ⟨hfacts, hrules⟩ := hsame p (hp.of_same hsame)
  exact ⟨hfacts.symm, hrules.symm⟩

/-! ### Other clauses leave no trace -/

/-- Facts for other predicates are passed over. -/
theorem firstMatch_factsAbout (goal : Literal) (b : Bindings) (kb : KnowledgeBase) :
    KnowledgeBase.firstMatch goal b (kb.factsAbout goal.predicate) =
      KnowledgeBase.firstMatch goal b kb.facts := by
  unfold KnowledgeBase.factsAbout
  induction kb.facts with
  | nil => rfl
  | cons fact facts ih =>
    cases hp : goal.predicate.equals fact.predicate with
    | false =>
      have hunify : unifyLiterals goal fact b = .ok none := by
        rw [unifyLiterals, hp]
        rfl
      simp only [List.filter_cons, hp, Bool.false_eq_true, if_false, KnowledgeBase.firstMatch,
        hunify, ih]
    | true => simp only [List.filter_cons, hp, if_true, KnowledgeBase.firstMatch, ih]

namespace Resolver

variable {settings : Settings} {depth levels : Nat} {goal : Literal} {b : Bindings}
variable {query : Item}

/-- Rules for other predicates are passed over. -/
theorem solveByRules_rulesAbout (solveBody : GoalsSolver) (kb : KnowledgeBase) :
    solveByRules settings solveBody goal depth b (kb.rulesAbout goal.predicate) =
      solveByRules settings solveBody goal depth b kb.rules := by
  unfold KnowledgeBase.rulesAbout
  induction kb.rules with
  | nil => rfl
  | cons rule rules ih =>
    cases hp : rule.head.predicate.equals goal.predicate with
    | false => simp only [List.filter_cons, hp, Bool.false_eq_true, if_false, solveByRules, ih]
    | true => simp only [List.filter_cons, hp, if_true, solveByRules, ih]

/-! ### Solvers that agree -/

/-- Computations agree if they begin with the same one, and agree on all that it proves. -/
theorem bind_congr {α β : Type} {s : Search α} {next next' : α → Search β}
    (h : ∀ a trail trail', s trail = (.proved a, trail') → next a = next' a) :
    s >>= next = s >>= next' := by
  funext trail
  show Search.bind s next trail = Search.bind s next' trail
  unfold Search.bind
  rcases e : s trail with ⟨a | - | fault, trail'⟩
  · simp only [h a trail trail' e]
  · rfl
  · rfl

theorem solveAll_congr {solver solver' : GoalSolver} {goals : List Literal}
    (h : ∀ goal ∈ goals, ∀ b, solver goal b = solver' goal b) (b : Bindings) :
    solveAll solver goals b = solveAll solver' goals b := by
  induction goals generalizing b with
  | nil => rfl
  | cons goal goals ih =>
    obtain ⟨hgoal, hgoals⟩ := List.forall_mem_cons.1 h
    rw [solveAll, solveAll, hgoal]
    refine bind_congr fun r _ _ _ => ?_
    show (solveAll solver goals r.1 >>= fun _ => _) = (solveAll solver' goals r.1 >>= fun _ => _)
    rw [ih hgoals]

theorem exists_of_bind_eq_ok {α β : Type} {c : Checked α} {f : α → Checked β} {y : β}
    (h : (c >>= f) = .ok y) : ∃ a, c = .ok a ∧ f a = .ok y := by
  cases c with
  | error fault => cases h
  | ok a => exact ⟨a, rfl, h⟩

/-- A fresh copy of a rule is the rule with its variables renamed. -/
theorem exists_rename_of_freshCopy {rule copy : Rule} {trail trail' : Trail}
    (h : Search.freshCopy rule trail = (.proved copy, trail')) : ∃ f, copy = rule.rename f := by
  rw [Search.freshCopy] at h
  rcases e : rule.standardizeApart trail.source with fault | ⟨copy', source⟩
  · rw [e] at h
    cases h
  · rw [e] at h
    obtain rfl := Outcome.proved.inj (Prod.ext_iff.1 h).1
    obtain ⟨vs, -, e⟩ := exists_of_bind_eq_ok e
    obtain ⟨top, -, e⟩ := exists_of_bind_eq_ok e
    obtain ⟨past, -, e⟩ := exists_of_bind_eq_ok e
    exact ⟨_, (Prod.ext_iff.1 (Except.ok.inj e)).1.symm⟩

/-- The bodies of the fresh copies of a rule are all that trying it asks a solver for. -/
theorem solveByRule_congr {solveBody solveBody' : GoalsSolver} {rule : Rule}
    (h : ∀ f c, solveBody (rule.rename f).body c = solveBody' (rule.rename f).body c) :
    solveByRule settings solveBody goal depth b rule =
      solveByRule settings solveBody' goal depth b rule := by
  refine bind_congr fun copy _ _ hcopy => ?_
  obtain ⟨f, rfl⟩ := exists_rename_of_freshCopy hcopy
  refine bind_congr fun unified _ _ _ => ?_
  cases unified with
  | none => rfl
  | some c =>
    have hbody : (do
        let r ← solveBody (rule.rename f).body c
        return (r.1, ProofNode.byRule goal (rule.rename f) r.2 depth)) = (do
        let r ← solveBody' (rule.rename f).body c
        return (r.1, ProofNode.byRule goal (rule.rename f) r.2 depth)) := by
      rw [h f c]
    -- the attempt may be recorded in between
    cases settings.trace with
    | false => exact hbody
    | true => exact bind_congr fun _ _ _ _ => hbody

theorem solveByRules_congr {solveBody solveBody' : GoalsSolver} {rules : List Rule}
    (h : ∀ rule ∈ rules, ∀ f c,
      solveBody (rule.rename f).body c = solveBody' (rule.rename f).body c) :
    solveByRules settings solveBody goal depth b rules =
      solveByRules settings solveBody' goal depth b rules := by
  induction rules with
  | nil => rfl
  | cons rule rules ih =>
    obtain ⟨hrule, hrules⟩ := List.forall_mem_cons.1 h
    rw [solveByRules, solveByRules, solveByRule_congr hrule, ih hrules]

/-! ### The search -/

/-- **A goal for a relevant predicate** is solved alike: the facts and the rules that are not
passed over are the same, and the bodies of these rules ask for relevant predicates only. -/
theorem solve_relevant (hsame : SameRelevant kb₁ kb₂ goals) (settings : Settings)
    (hgoal : Relevant kb₁ goals goal.predicate) (levels depth : Nat) (b : Bindings) :
    solve kb₁ settings levels depth goal b = solve kb₂ settings levels depth goal b := by
  induction levels generalizing depth goal b with
  | zero => rfl
  | succ levels ih =>
    obtain ⟨hfacts, hrules⟩ := hsame _ hgoal
    refine bind_congr fun _ _ _ _ => ?_
    refine bind_congr fun _ _ _ _ => ?_
    rw [← firstMatch_factsAbout goal b kb₁, hfacts, firstMatch_factsAbout]
    refine bind_congr fun found _ _ _ => ?_
    cases found with
    | some match? => rfl
    | none =>
      show solveByRules settings _ goal depth b kb₁.rules =
        solveByRules settings _ goal depth b kb₂.rules
      rw [← solveByRules_rulesAbout _ kb₁, ← solveByRules_rulesAbout _ kb₂, ← hrules]
      refine solveByRules_congr fun rule hrule f c => solveAll_congr (fun l hl d => ?_) c
      obtain ⟨l', hl', rfl⟩ := List.mem_map.1 hl
      have hl' : Relevant kb₁ goals l'.predicate := .body hgoal hrule hl'
      -- renaming variables keeps the predicate
      have hcopy : Relevant kb₁ goals (l'.rename f).predicate := hl'
      exact ih hcopy (depth + 1) d

theorem solveGoals_relevant (hsame : SameRelevant kb₁ kb₂ goals) (settings : Settings)
    (levels : Nat) {rest : List Literal} (hrest : ∀ g ∈ rest, g ∈ goals) (b : Bindings) :
    solveGoals kb₁ settings levels (rest.map .literal) b =
      solveGoals kb₂ settings levels (rest.map .literal) b := by
  induction rest generalizing b with
  | nil => rfl
  | cons goal rest ih =>
    obtain ⟨hgoal, hrest⟩ := List.forall_mem_cons.1 hrest
    show (solve kb₁ settings levels 0 goal b >>= fun _ => _) =
      (solve kb₂ settings levels 0 goal b >>= fun _ => _)
    rw [solve_relevant hsame settings (.goal hgoal)]
    refine bind_congr fun r _ _ _ => ?_
    show (solveGoals kb₁ settings levels (rest.map .literal) r.1 >>= fun _ => _) =
      (solveGoals kb₂ settings levels (rest.map .literal) r.1 >>= fun _ => _)
    rw [ih hrest]

/-- **The search depends on the relevant clauses only**: it is the same computation for two
knowledge bases that agree on these, whatever nesting it is granted, and so it has the same
end for both or for neither. -/
theorem prove_relevant (hquery : goalsOf query = .ok (goals.map .literal))
    (hsame : SameRelevant kb₁ kb₂ goals) (settings : Settings) (b : Bindings) :
    (∀ levels, prove kb₁ settings levels query b = prove kb₂ settings levels query b) ∧
      ∀ trail r, Ends kb₁ settings query b trail r ↔ Ends kb₂ settings query b trail r := by
  have heq : ∀ levels, prove kb₁ settings levels query b = prove kb₂ settings levels query b := by
    intro levels
    have hgoals := solveGoals_relevant hsame settings levels (fun g hg => hg) b
    unfold prove
    rw [hquery]
    refine bind_congr fun is trail trail' his => ?_
    obtain rfl := Outcome.proved.inj (Prod.ext_iff.1 his).1
    rw [hgoals]
  refine ⟨heq, fun trail r => ?_⟩
  unfold Ends
  simp only [heq]

end Resolver

namespace Family

/-- The clauses about parents and ancestors, mixed differently and with others among them: a
fact about ages, and a rule about siblings that asks for parents. -/
def mixed : KnowledgeBase := .ofList [
  .rule ⟨ancestor (someone "X") (someone "Z"),
    [parent (someone "X") (someone "Y"), ancestor (someone "Y") (someone "Z")]⟩,
  .fact ⟨.str "age", [person "tom", .const (.int 70)]⟩,
  .fact (parent (person "tom") (person "bob")),
  .rule ⟨⟨.str "sibling", [someone "X", someone "Y"]⟩,
    [parent (someone "Z") (someone "X"), parent (someone "Z") (someone "Y")]⟩,
  .rule ⟨ancestor (someone "X") (someone "Y"), [parent (someone "X") (someone "Y")]⟩,
  .fact (parent (person "bob") (person "ann"))]

/-- Only parents and ancestors are relevant. -/
theorem predicate_of_relevant {p : Value} (h : Relevant clauses Family.goals p) :
    p = .str "ancestor" ∨ p = .str "parent" := by
  have hbodies : ∀ rule ∈ clauses.rules, ∀ l ∈ rule.body,
      l.predicate = .str "ancestor" ∨ l.predicate = .str "parent" := by
    intro rule hrule
    simp only [clauses, KnowledgeBase.rules_ofList, Clause.rule?, List.filterMap_cons,
      List.filterMap_nil, List.mem_cons, List.not_mem_nil, or_false] at hrule
    rcases hrule with rfl | rfl <;> simp [parent, ancestor]
  induction h with
  | goal hg =>
    rcases List.mem_cons.1 hg with rfl | hg
    · exact .inl rfl
    · obtain rfl := List.mem_singleton.1 hg
      exact .inr rfl
  | body _ hrule hl _ => exact hbodies _ (List.mem_of_mem_filter hrule) _ hl

theorem sameRelevant_mixed : SameRelevant clauses mixed Family.goals := by
  intro p hp
  rcases predicate_of_relevant hp with rfl | rfl
  · exact ⟨by cbv, by cbv⟩
  · exact ⟨by cbv, by cbv⟩

end Family

open Family in
/-- The other clauses and the other mixture make no difference to a query about ancestors. -/
theorem relevant_family : ∃ tree trail', tree.isValid = true ∧
    Resolver.Ends clauses {} (.list (Family.goals.map .literal)) start { source := ⟨.int 5⟩ }
      (.proved tree, trail') ∧
    Resolver.Ends mixed {} (.list (Family.goals.map .literal)) start { source := ⟨.int 5⟩ }
      (.proved tree, trail') := by
  obtain ⟨tree, trail', hprove, hvalid⟩ : ∃ tree trail', Resolver.prove clauses {} 9
      (.list (Family.goals.map .literal)) start { source := ⟨.int 5⟩ } = (.proved tree, trail') ∧
      tree.isValid = true :=
    ⟨_, _, by cbv, by cbv⟩
  have hends : Resolver.Ends clauses {} (.list (Family.goals.map .literal)) start
      { source := ⟨.int 5⟩ } (.proved tree, trail') := ⟨9, hprove, by simp⟩
  have hquery : Resolver.goalsOf (.list (Family.goals.map .literal)) =
      .ok (Family.goals.map .literal) := rfl
  obtain ⟨-, hiff⟩ := Resolver.prove_relevant hquery sameRelevant_mixed {} start
  exact ⟨tree, trail', hvalid, hends, (hiff _ _).1 hends⟩

end HornSearch
