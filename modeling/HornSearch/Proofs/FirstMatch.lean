/-
HornSearch/Proofs/FirstMatch.lean

The search is a first-match strategy.  The strategy is stated on goals and bindings alone,
with no serials, depths or nesting: a goal is `Solved` by the first fact that unifies or,
where there is none, by the first rule that is not `Rejected`, for any copy of the rule that
is fresh; it is `Failed` if no fact unifies and every rule is rejected.  So there is no other
fact or rule tried once one has solved the goal, and no goal is solved a second time.

* `Solved.course`, `Failed.course`: a search that is granted enough nesting follows a
  derivation, wherever it stands (on the derivation);
* `Course.accords`: what a search comes to can be derived (on the course);
* `SolvedAll.exists_renaming`: the bindings that can be derived are one another's
  renamings, since any two derivations are followed by courses in lockstep;
* `prove_firstMatch`: a query ends in a valid tree exactly if its goals are solved, and in an
  invalid one exactly if they fail.
-/
import Mathlib.Order.Filter.AtTopBot.Basic
import HornSearch.Proofs.RenamedQueries

namespace HornSearch

/-! ### The strategy -/

mutual

/-- The goal is solved, with others pending: by the first fact that unifies, or, if there is
none, by the first rule that is not rejected. -/
inductive Solved (kb : KnowledgeBase) : List Literal → Literal → Bindings → Bindings → Prop where
  | fact {pending before after : List Literal} {goal fact : Literal} {b c : Bindings} :
      kb.facts = before ++ fact :: after → (∀ f ∈ before, unifyLiterals goal f b = .ok none) →
      unifyLiterals goal fact b = .ok (some c) → Solved kb pending goal b c
  | rule {pending : List Literal} {before after : List Rule} {goal : Literal} {rule copy : Rule}
      {b c d : Bindings} :
      (∀ f ∈ kb.facts, unifyLiterals goal f b = .ok none) → kb.rules = before ++ rule :: after →
      (∀ r ∈ before, Rejected kb pending goal b r) →
      rule.head.predicate.equals goal.predicate = true →
      FreshCopy rule copy (goal :: pending) b → unifyLiterals goal copy.head b = .ok (some c) →
      SolvedAll kb pending copy.body c d → Solved kb pending goal b d

/-- The goals are solved from left to right, each once, the bindings of one being those that
the next one starts from. -/
inductive SolvedAll (kb : KnowledgeBase) :
    List Literal → List Literal → Bindings → Bindings → Prop where
  | nil {pending : List Literal} {b : Bindings} : SolvedAll kb pending [] b b
  | cons {pending goals : List Literal} {goal : Literal} {b c d : Bindings} :
      Solved kb (goals ++ pending) goal b c → SolvedAll kb pending goals c d →
      SolvedAll kb pending (goal :: goals) b d

/-- The goal fails: no fact unifies, and every rule is rejected. -/
inductive Failed (kb : KnowledgeBase) : List Literal → Literal → Bindings → Prop where
  | intro {pending : List Literal} {goal : Literal} {b : Bindings} :
      (∀ f ∈ kb.facts, unifyLiterals goal f b = .ok none) →
      (∀ r ∈ kb.rules, Rejected kb pending goal b r) → Failed kb pending goal b

/-- The goals fail: some first ones are solved, and the next one fails. -/
inductive FailedAll (kb : KnowledgeBase) : List Literal → List Literal → Bindings → Prop where
  | intro {pending before after : List Literal} {goal : Literal} {b c : Bindings} :
      SolvedAll kb (goal :: after ++ pending) before b c → Failed kb (after ++ pending) goal c →
      FailedAll kb pending (before ++ goal :: after) b

/-- The rule is rejected: it is for another predicate, it does not unify, or its body fails. -/
inductive Rejected (kb : KnowledgeBase) : List Literal → Literal → Bindings → Rule → Prop where
  | predicate {pending : List Literal} {goal : Literal} {b : Bindings} {rule : Rule} :
      rule.head.predicate.equals goal.predicate = false → Rejected kb pending goal b rule
  | clash {pending : List Literal} {goal : Literal} {b : Bindings} {rule copy : Rule} :
      rule.head.predicate.equals goal.predicate = true →
      FreshCopy rule copy (goal :: pending) b → unifyLiterals goal copy.head b = .ok none →
      Rejected kb pending goal b rule
  | body {pending : List Literal} {goal : Literal} {b c : Bindings} {rule copy : Rule} :
      rule.head.predicate.equals goal.predicate = true →
      FreshCopy rule copy (goal :: pending) b → unifyLiterals goal copy.head b = .ok (some c) →
      FailedAll kb pending copy.body c → Rejected kb pending goal b rule

end

/-! ### Facts in order -/

namespace KnowledgeBase

variable {goal fact : Literal} {b c : Bindings} {facts : List Literal}

theorem firstMatch_eq_none_iff : firstMatch goal b facts = .ok none ↔
    ∀ f ∈ facts, unifyLiterals goal f b = .ok none := by
  induction facts with
  | nil => simp [firstMatch]
  | cons f facts ih =>
    rw [firstMatch, List.forall_mem_cons]
    rcases e : unifyLiterals goal f b with _ | - | d
    · simp
    · simpa using ih
    · simp

/-- The fact that is found unifies, and none before it does. -/
theorem firstMatch_eq_some_iff : firstMatch goal b facts = .ok (some (fact, c)) ↔
    ∃ before after, facts = before ++ fact :: after ∧
      (∀ f ∈ before, unifyLiterals goal f b = .ok none) ∧
      unifyLiterals goal fact b = .ok (some c) := by
  constructor
  · intro h
    induction facts with
    | nil => cases h
    | cons f facts ih =>
      rw [firstMatch] at h
      rcases e : unifyLiterals goal f b with _ | - | d
      · simp [e] at h
      · rw [e] at h
        obtain ⟨before, after, rfl, hbefore, hunify⟩ := ih h
        exact ⟨f :: before, after, rfl, List.forall_mem_cons.2 ⟨e, hbefore⟩, hunify⟩
      · rw [e] at h
        obtain ⟨rfl, rfl⟩ := Prod.ext_iff.1 (Option.some.inj (Except.ok.inj h))
        exact ⟨[], facts, rfl, List.forall_mem_nil _, e⟩
  · rintro ⟨before, after, rfl, hbefore, hunify⟩
    induction before with
    | nil => rw [List.nil_append, firstMatch, hunify]
    | cons f before ih =>
      obtain ⟨hf, hbefore⟩ := List.forall_mem_cons.1 hbefore
      rw [List.cons_append, firstMatch, hf]
      exact ih hbefore

end KnowledgeBase

/-! ### Courses with enough nesting -/

section Courses

open Filter

variable {kb : KnowledgeBase} {depth : Nat} {pending rest : List Literal} {goal : Literal}
variable {b c : Bindings} {e : Ending}

/-- Without a limit, the task ends in some way as soon as the nesting suffices. -/
def EventualCourse (kb : KnowledgeBase) (depth : Nat) (pending : List Literal) (task : Task)
    (b : Bindings) (e : Ending) : Prop :=
  ∀ᶠ levels in atTop, Course kb none levels depth pending task b e

theorem allows_none (depth : Nat) : Allows none depth := by
  rintro N ⟨⟩

/-- A goal is proved by the first fact that unifies. -/
theorem eventualCourse_fact {fact : Literal}
    (h : KnowledgeBase.firstMatch goal b kb.facts = .ok (some (fact, c))) :
    EventualCourse kb depth pending (.goal goal) b (.proved c [.byFact goal fact depth]) := by
  refine eventually_atTop.2 ⟨1, fun levels hle => ?_⟩
  obtain ⟨levels, rfl⟩ := Nat.exists_eq_add_one.2 hle
  exact .fact (allows_none depth) h

/-- Where no fact unifies, a goal comes to what its rules come to. -/
theorem eventualCourse_rules (h : ∀ f ∈ kb.facts, unifyLiterals goal f b = .ok none)
    (hrules : EventualCourse kb depth pending (.rules goal kb.rules) b e) :
    EventualCourse kb depth pending (.goal goal) b e := by
  obtain ⟨L, hL⟩ := eventually_atTop.1 hrules
  refine eventually_atTop.2 ⟨L + 1, fun levels hle => ?_⟩
  obtain ⟨levels, rfl⟩ := Nat.exists_eq_add_one.2 (Nat.zero_lt_of_lt hle)
  have hfacts := KnowledgeBase.firstMatch_eq_none_iff.2 h
  exact .rules (allows_none depth) hfacts (hL levels (Nat.le_of_succ_le_succ hle))

theorem Course.eq_of_nil {limit : Option Nat} {levels : Nat} {nodes : List ProofNode}
    (h : Course kb limit levels depth pending (.goals []) b (.proved c nodes)) :
    c = b ∧ nodes = [] := by
  cases h
  exact ⟨rfl, rfl⟩

theorem Course.exists_of_cons {limit : Option Nat} {levels : Nat} {goals : List Literal}
    {nodes : List ProofNode}
    (h : Course kb limit levels depth pending (.goals (goal :: goals)) b (.proved c nodes)) :
    ∃ d first others, Course kb limit levels depth (goals ++ pending) (.goal goal) b
        (.proved d first) ∧
      Course kb limit levels depth pending (.goals goals) d (.proved c others) ∧
      nodes = first ++ others := by
  generalize htask : Task.goals (goal :: goals) = task at h
  generalize hend : Ending.proved c nodes = ending at h
  cases h with
  | @cons _ _ _ _ _ _ d first e hgoal hgoals =>
    obtain ⟨rfl, rfl⟩ := List.cons.inj (Task.goals.inj htask)
    cases e with
    | proved c' others =>
      obtain ⟨rfl, rfl⟩ := Ending.proved.inj hend
      exact ⟨d, first, others, hgoal, hgoals, rfl⟩
    | failed => cases hend
    | tooDeep => cases hend
    | endless => cases hend
  | halt _ hproof =>
    rw [← hend] at hproof
    cases hproof
  | _ => cases htask

/-- The goals after some that are proved come to what they come to on their own. -/
theorem Course.append {limit : Option Nat} {levels : Nat} {before : List Literal}
    {nodes : List ProofNode}
    (h : Course kb limit levels depth (rest ++ pending) (.goals before) b (.proved c nodes))
    (hrest : Course kb limit levels depth pending (.goals rest) c e) :
    Course kb limit levels depth pending (.goals (before ++ rest)) b (e.after nodes) := by
  induction before generalizing b nodes with
  | nil =>
    obtain ⟨rfl, rfl⟩ := h.eq_of_nil
    rwa [Ending.after_nil]
  | cons goal before ih =>
    obtain ⟨d, first, others, hgoal, hbefore, rfl⟩ := h.exists_of_cons
    rw [List.cons_append, ← Ending.after_after]
    refine .cons ?_ (ih hbefore)
    rwa [List.append_assoc]

/-- Rules that are passed over whatever comes after them. -/
def PassedOver (kb : KnowledgeBase) (depth : Nat) (pending : List Literal) (goal : Literal)
    (b : Bindings) (before : List Rule) : Prop :=
  ∀ᶠ levels in atTop, ∀ rules e, Course kb none levels depth pending (.rules goal rules) b e →
    Course kb none levels depth pending (.rules goal (before ++ rules)) b e

theorem passedOver_of_forall {before : List Rule}
    (h : ∀ r ∈ before, PassedOver kb depth pending goal b [r]) :
    PassedOver kb depth pending goal b before := by
  induction before with
  | nil => exact .of_forall fun _ _ _ h => h
  | cons r before ih =>
    obtain ⟨hr, hbefore⟩ := List.forall_mem_cons.1 h
    filter_upwards [hr, ih hbefore] with levels hr hbefore rules e hrules
    exact hr _ _ (hbefore rules e hrules)

end Courses

/-! ### The strategy is followed -/

section Strategy

open Filter

variable {kb : KnowledgeBase}

mutual

/-- A goal that is solved is proved. -/
theorem Solved.course {pending : List Literal} {goal : Literal} {b c : Bindings} :
    Solved kb pending goal b c → ∀ depth,
      ∃ nodes, EventualCourse kb depth pending (.goal goal) b (.proved c nodes)
  | @Solved.fact _ _ before after _ fact _ _ hfacts hbefore hunify, depth => by
    have hfirst : KnowledgeBase.firstMatch goal b kb.facts = .ok (some (fact, c)) :=
      KnowledgeBase.firstMatch_eq_some_iff.2 ⟨before, after, hfacts, hbefore, hunify⟩
    exact ⟨_, eventualCourse_fact hfirst⟩
  | @Solved.rule _ _ _ _ _ _ copy _ _ _ hfacts hrules hbefore hpredicate hcopy hunify hbody,
    depth => by
    obtain ⟨nodes, hnodes⟩ := hbody.course (depth + 1)
    have hpassed := passedOver_of_forall fun r hr => (hbefore r hr).course depth
    refine ⟨[.byRule goal copy nodes depth], eventualCourse_rules hfacts ?_⟩
    filter_upwards [hnodes, hpassed] with levels hnodes hpassed
    rw [hrules]
    exact hpassed _ _ (.take hpredicate hcopy hunify hnodes (by simp))

theorem SolvedAll.course {pending goals : List Literal} {b c : Bindings} :
    SolvedAll kb pending goals b c → ∀ depth,
      ∃ nodes, EventualCourse kb depth pending (.goals goals) b (.proved c nodes)
  | .nil, depth => ⟨[], .of_forall fun _ => .nil⟩
  | .cons hgoal hgoals, depth => by
    obtain ⟨nodes, hnodes⟩ := hgoal.course depth
    obtain ⟨rest, hrest⟩ := hgoals.course depth
    refine ⟨nodes ++ rest, ?_⟩
    filter_upwards [hnodes, hrest] with levels hnodes hrest
    exact .cons hnodes hrest

theorem Failed.course {pending : List Literal} {goal : Literal} {b : Bindings} :
    Failed kb pending goal b → ∀ depth, EventualCourse kb depth pending (.goal goal) b .failed
  | .intro hfacts hrules, depth => by
    have hpassed := passedOver_of_forall fun r hr => (hrules r hr).course depth
    refine eventualCourse_rules hfacts ?_
    filter_upwards [hpassed] with levels hpassed
    have hall := hpassed [] _ .exhausted
    rwa [List.append_nil] at hall

theorem FailedAll.course {pending goals : List Literal} {b : Bindings} :
    FailedAll kb pending goals b → ∀ depth,
      EventualCourse kb depth pending (.goals goals) b .failed
  | .intro hbefore hgoal, depth => by
    obtain ⟨nodes, hnodes⟩ := hbefore.course depth
    filter_upwards [hnodes, hgoal.course depth] with levels hnodes hgoal
    exact hnodes.append (.halt hgoal rfl)

theorem Rejected.course {pending : List Literal} {goal : Literal} {b : Bindings} {rule : Rule} :
    Rejected kb pending goal b rule → ∀ depth, PassedOver kb depth pending goal b [rule]
  | .predicate hpredicate, depth => .of_forall fun _ _ _ hrules => .skip hpredicate hrules
  | .clash hpredicate hcopy hunify, depth =>
    .of_forall fun _ _ _ hrules => .clash hpredicate hcopy hunify hrules
  | .body hpredicate hcopy hunify hbody, depth => by
    filter_upwards [hbody.course (depth + 1)] with levels hbody rules e hrules
    exact .next hpredicate hcopy hunify hbody hrules

end

/-! ### Courses follow the strategy -/

variable {pending goals : List Literal} {goal : Literal} {b c d : Bindings} {rule : Rule}
variable {rules : List Rule} {e : Ending}

/-- The goal is solved by the first of the rules that is not rejected. -/
def SolvedBy (kb : KnowledgeBase) (pending : List Literal) (goal : Literal) (b d : Bindings)
    (rules : List Rule) : Prop :=
  ∃ before rule after copy c, rules = before ++ rule :: after ∧
    (∀ r ∈ before, Rejected kb pending goal b r) ∧
    rule.head.predicate.equals goal.predicate = true ∧ FreshCopy rule copy (goal :: pending) b ∧
    unifyLiterals goal copy.head b = .ok (some c) ∧ SolvedAll kb pending copy.body c d

theorem SolvedBy.cons (hrule : Rejected kb pending goal b rule)
    (h : SolvedBy kb pending goal b d rules) : SolvedBy kb pending goal b d (rule :: rules) := by
  obtain ⟨before, rule', after, copy, c, rfl, hbefore, h⟩ := h
  exact ⟨rule :: before, rule', after, copy, c, rfl, List.forall_mem_cons.2 ⟨hrule, hbefore⟩, h⟩

theorem FailedAll.head (h : Failed kb (goals ++ pending) goal b) :
    FailedAll kb pending (goal :: goals) b := by
  show FailedAll kb pending ([] ++ goal :: goals) b
  exact .intro .nil h

theorem FailedAll.cons (hgoal : Solved kb (goals ++ pending) goal b c)
    (h : FailedAll kb pending goals c) : FailedAll kb pending (goal :: goals) b := by
  obtain @⟨_, before, after, next, _, d, hbefore, hnext⟩ := h
  rw [← List.cons_append]
  refine .intro (.cons ?_ hbefore) hnext
  rwa [List.append_assoc] at hgoal

/-- What the strategy says of a task and an ending. -/
def Task.Accords (kb : KnowledgeBase) (pending : List Literal) :
    Task → Bindings → Ending → Prop
  | .goals goals, b, .proved c _ => SolvedAll kb pending goals b c
  | .goals goals, b, .failed => FailedAll kb pending goals b
  | .goal goal, b, .proved c _ => Solved kb pending goal b c
  | .goal goal, b, .failed => Failed kb pending goal b
  | .rules goal rules, b, .proved d _ => SolvedBy kb pending goal b d rules
  | .rules goal rules, b, .failed => ∀ r ∈ rules, Rejected kb pending goal b r
  | _, _, _ => True

theorem Task.Accords.cons_rule (hrule : Rejected kb pending goal b rule)
    (h : (Task.rules goal rules).Accords kb pending b e) :
    (Task.rules goal (rule :: rules)).Accords kb pending b e := by
  cases e with
  | proved => exact SolvedBy.cons hrule h
  | failed => exact List.forall_mem_cons.2 ⟨hrule, h⟩
  | tooDeep => trivial
  | endless => trivial

/-- Every course accords with the strategy. -/
theorem Course.accords {limit : Option Nat} {levels depth : Nat} {task : Task}
    (h : Course kb limit levels depth pending task b e) : task.Accords kb pending b e := by
  induction h with
  | nil => exact SolvedAll.nil
  | @cons _ _ _ _ _ _ _ _ e _ _ ihgoal ih =>
    cases e with
    | proved => exact SolvedAll.cons ihgoal ih
    | failed => exact FailedAll.cons ihgoal ih
    | tooDeep => trivial
    | endless => trivial
  | @halt _ _ _ _ _ _ e _ hproof ih =>
    cases e with
    | proved => cases hproof
    | failed => exact FailedAll.head ih
    | tooDeep => trivial
    | endless => trivial
  | tooDeep => trivial
  | endless => trivial
  | fact _ hfact =>
    obtain ⟨before, after, hfacts, hbefore, hunify⟩ :=
      KnowledgeBase.firstMatch_eq_some_iff.1 hfact
    exact Solved.fact hfacts hbefore hunify
  | @rules _ _ _ _ _ e _ hfacts _ ih =>
    have hfacts' := KnowledgeBase.firstMatch_eq_none_iff.1 hfacts
    cases e with
    | proved =>
      obtain ⟨before, rule, after, copy, c, hrules, hbefore, hpredicate, hcopy, hunify, hbody⟩ := ih
      exact Solved.rule hfacts' hrules hbefore hpredicate hcopy hunify hbody
    | failed => exact Failed.intro hfacts' ih
    | tooDeep => trivial
    | endless => trivial
  | exhausted => exact List.forall_mem_nil _
  | skip hpredicate _ ih => exact ih.cons_rule (.predicate hpredicate)
  | clash hpredicate hcopy hunify _ ih => exact ih.cons_rule (.clash hpredicate hcopy hunify)
  | next hpredicate hcopy hunify _ _ ihbody ih =>
    exact ih.cons_rule (.body hpredicate hcopy hunify ihbody)
  | @take _ _ _ _ rule copy rules _ c e hpredicate hcopy hunify _ hne ihbody =>
    cases e with
    | proved =>
      exact ⟨[], rule, rules, copy, c, rfl, List.forall_mem_nil _, hpredicate, hcopy, hunify,
        ihbody⟩
    | failed => exact absurd rfl hne
    | tooDeep => trivial
    | endless => trivial

end Strategy

/-! ### One outcome, up to a renaming -/

section Outcome

open Filter

variable {kb : KnowledgeBase} {pending goals : List Literal} {b c d : Bindings}

theorem Rule.IsVariant.refl (r : Rule) : r.IsVariant r :=
  ⟨fun v => v, (Rule.rename_id r).symm, fun _ _ _ _ h => h⟩

/-- A knowledge base simulates itself, up to renamings. -/
theorem Renamed.simulation_self (hkb : kb.Meets .regular) : Simulation kb kb Renamed :=
  Renamed.simulation hkb rfl (List.forall₂_same.2 fun r _ => .refl r)

/-- Some literal holds the variables of an environment. -/
theorem Bindings.Meets.exists_literal (hb : b.Meets .regular) :
    ∃ m : Literal, m.meets .regular = true ∧ ∀ v, v ∈ m.occurrences ↔ b.Mentions v := by
  obtain ⟨vs, hvs⟩ := hb.exists_mentioned
  refine ⟨⟨.str "", vs.map .var⟩, ?_, fun v => ?_⟩
  · refine Literal.meets_iff.2 ⟨rfl, List.forall_mem_map.2 fun v hv => ?_⟩
    exact hb.isRegular_of_mentions ((hvs v).1 hv)
  · rw [← hvs, ← Literal.occurrences_asTerm, Literal.asTerm, Term.mem_occurrences_app]
    simp [Term.occurrences]

/-- Two courses of the same goals agree up to a renaming that leaves the variables of the
goals and of the bindings alone. -/
theorem Course.agree_self (hkb : kb.Meets .regular)
    (hg : ∀ g ∈ goals ++ pending, g.meets .regular = true) (hb : b.Meets .regular)
    (hac : b.Acyclic) {limit : Option Nat} {levels depth : Nat} {e₁ e₂ : Ending}
    (h₁ : Course kb limit levels depth pending (.goals goals) b e₁)
    (h₂ : Course kb limit levels depth pending (.goals goals) b e₂) :
    ∃ m : Literal, (∀ v, v ∈ m.occurrences ↔ b.Mentions v) ∧
      Agree kb kb Renamed pending pending
        ((m, m) :: (goals ++ pending).zip (goals ++ pending)) e₁ e₂ := by
  obtain ⟨m, hm, hoccurs⟩ := hb.exists_literal
  have hpairs : ∀ l₁ l₂, (l₁, l₂) ∈ (m, m) :: (goals ++ pending).zip (goals ++ pending) →
      l₁.meets .regular = true ∧ l₂ = l₁ := by
    intro l₁ l₂ hl
    rcases List.mem_cons.1 hl with heq | hl
    · obtain ⟨rfl, rfl⟩ := Prod.mk.inj heq
      exact ⟨hm, rfl⟩
    · obtain ⟨hl₁, rfl⟩ := eq_of_mem_zip_self hl
      exact ⟨hg _ hl₁, rfl⟩
  have hrelated : Renamed ((m, m) :: (goals ++ pending).zip (goals ++ pending)) b b := by
    refine ⟨Equiv.refl _, .refl, b.rename_id.symm, fun l₁ l₂ hl => ?_, hb, hac⟩
    obtain ⟨hl₁, rfl⟩ := hpairs l₁ l₂ hl
    exact ⟨hl₁, (Literal.rename_id _).symm⟩
  have hcovers : Covers (goals ++ pending) b (m :: (goals ++ pending)) := by
    refine List.forall_mem_cons.2 ⟨fun v hv => .inr ((hoccurs v).1 hv), ?_⟩
    exact Covers.self _ _
  refine ⟨m, hoccurs, h₁.agree (Renamed.simulation_self hkb) h₂ (.goals rfl) ?_⟩
  refine ⟨hrelated, ?_, ?_, ?_⟩
  · exact (List.forall₂_iff_zip.2 ⟨rfl, fun {_ _} h => h⟩).imp
      fun _ _ => List.mem_cons_of_mem _
  · rw [List.map_cons, List.map_fst_zip le_rfl]
    exact hcovers
  · rw [List.map_cons, List.map_snd_zip le_rfl]
    exact hcovers

/-- Two environments that goals are solved with are the same up to a permutation that leaves
the variables of the goals and of the first environment alone. -/
theorem SolvedAll.exists_renaming (hkb : kb.Meets .regular)
    (hg : ∀ g ∈ goals ++ pending, g.meets .regular = true) (hb : b.Meets .regular)
    (hac : b.Acyclic) (h : SolvedAll kb pending goals b c) (h' : SolvedAll kb pending goals b d) :
    ∃ π ps, Carries π ps c d ∧ ∀ v, InUse (goals ++ pending) b v → π v = v := by
  obtain ⟨nodes, hnodes⟩ := h.course 0
  obtain ⟨nodes', hnodes'⟩ := h'.course 0
  obtain ⟨levels, hcourse, hcourse'⟩ := (hnodes.and hnodes').exists
  obtain ⟨m, hm, hagree⟩ := Course.agree_self hkb hg hb hac hcourse hcourse'
  cases hagree with
  | proved hsub hstep _ =>
    obtain ⟨π, hπ⟩ := hstep.related
    have hfixed : ∀ l, (l, l) ∈ (m, m) :: (goals ++ pending).zip (goals ++ pending) →
        ∀ v ∈ l.occurrences, π v = v := by
      intro l hl v hv
      have hrename : l.asTerm.rename π = l.asTerm.rename fun v => v := by
        rw [← Literal.asTerm_rename, ← (hπ.literals l l (hsub hl)).2, Term.rename_id]
      exact Term.eq_of_rename_eq hrename hv
    refine ⟨π, _, hπ, fun v hv => ?_⟩
    rcases hv with ⟨l, hl, hvl⟩ | hvb
    · have hzip : ∀ l ∈ goals ++ pending, (l, l) ∈ (goals ++ pending).zip (goals ++ pending) :=
        List.forall₂_same.1 (List.forall₂_iff_zip.2 ⟨rfl, fun {_ _} h => h⟩)
      exact hfixed l (List.mem_cons_of_mem _ (hzip l hl)) v hvl
    · exact hfixed m List.mem_cons_self v ((hm v).2 hvb)

/-- If the permutation leaves the goals alone, it carries the answers. -/
theorem Carries.answers_eq {π : Equiv.Perm Variable} {ps : Pairing} (hπ : Carries π ps c d)
    (hg : ∀ g ∈ goals, g.meets .regular = true) (hfixed : ∀ v, InUse goals b v → π v = v) :
    goals.map (Literal.instantiate d.solution) =
      (goals.map (Literal.instantiate c.solution)).map (Literal.rename π) := by
  rw [List.map_map]
  refine List.map_congr_left fun g hmem => ?_
  have hrename : g.rename π = g :=
    (Literal.rename_congr fun v hv => hfixed v (.inl ⟨g, hmem, hv⟩)).trans (Literal.rename_id g)
  have hsolution := hπ.acyclic.literal_solution_rename hπ.regular hπ.keeps.isRenaming (hg g hmem)
  rwa [hrename, ← hπ.bindings] at hsolution

/-- Goals that are solved do not fail. -/
theorem SolvedAll.not_failedAll (hkb : kb.Meets .regular)
    (hg : ∀ g ∈ goals ++ pending, g.meets .regular = true) (hb : b.Meets .regular)
    (hac : b.Acyclic) (h : SolvedAll kb pending goals b c) : ¬ FailedAll kb pending goals b := by
  intro hfailed
  obtain ⟨nodes, hnodes⟩ := h.course 0
  obtain ⟨levels, hcourse, hcourse'⟩ := (hnodes.and (hfailed.course 0)).exists
  obtain ⟨m, -, hagree⟩ := Course.agree_self hkb hg hb hac hcourse hcourse'
  cases hagree

/-- What goals are solved with is regular and acyclic. -/
theorem SolvedAll.meets (hkb : kb.Meets .regular)
    (hg : ∀ g ∈ goals ++ pending, g.meets .regular = true) (hb : b.Meets .regular)
    (hac : b.Acyclic) (h : SolvedAll kb pending goals b c) : c.Meets .regular ∧ c.Acyclic := by
  obtain ⟨π, ps, hπ, -⟩ := h.exists_renaming hkb hg hb hac h
  exact ⟨hπ.regular, hπ.acyclic⟩

end Outcome

/-! ### The main result -/

section Queries

open Resolver Filter

variable {kb : KnowledgeBase} {settings : Settings} {query : Item} {goals : List Literal}
variable {b c : Bindings} {trail : Trail} {n : Int} {r : Outcome ProofTree × Trail}

/-- The search for a proof of some goals is the strategy. -/
structure SearchesFirstMatch (kb : KnowledgeBase) (settings : Settings) (query : Item)
    (goals : List Literal) (b : Bindings) (trail : Trail) : Prop where
  /-- It ends in a valid tree exactly if the goals are solved. -/
  valid : (∃ r tree, Ends kb settings query b trail r ∧ r.1 = .proved tree ∧
    tree.isValid = true) ↔ ∃ c, SolvedAll kb [] goals b c
  /-- It ends in an invalid tree exactly if they fail. -/
  invalid : (∃ r tree, Ends kb settings query b trail r ∧ r.1 = .proved tree ∧
    tree.isValid = false) ↔ FailedAll kb [] goals b
  exclusive : ∀ c, SolvedAll kb [] goals b c → ¬ FailedAll kb [] goals b
  /-- It does not end if they do neither. -/
  endless : (¬ ∃ r, Ends kb settings query b trail r) ↔
    (¬ ∃ c, SolvedAll kb [] goals b c) ∧ ¬ FailedAll kb [] goals b
  /-- The bindings of the tree are ones that the goals are solved with. -/
  bindings : ∀ r tree c nodes, Ends kb settings query b trail r → r.1 = .proved tree →
    tree.proof = some (c, nodes) → SolvedAll kb [] goals b c ∧
      tree.answer = .ok (some ((goals.map (Literal.instantiate c.solution)).map .literal))
  /-- All others, and the answers from them, differ from these in names only. -/
  unique : ∀ c d, SolvedAll kb [] goals b c → SolvedAll kb [] goals b d →
    ∃ π : Equiv.Perm Variable, KeepsRegular π ∧ d = c.rename π ∧
      (∀ v, InUse goals b v → π v = v) ∧ goals.map (Literal.instantiate d.solution) =
        (goals.map (Literal.instantiate c.solution)).map (Literal.rename π)

/-- A search that ends without a limit has solved its goals, or they have failed. -/
theorem Resolver.Ends.accords (h : WellPosed kb query goals b) (htrail : trail.source = ⟨.int n⟩)
    (hlimit : settings.maxDepth = none) (hr : Ends kb settings query b trail r) :
    (∃ c nodes, r.1 = .proved ⟨goals.map .literal, some (c, nodes)⟩ ∧
      SolvedAll kb [] goals b c) ∨
    (r.1 = .proved ⟨goals.map .literal, none⟩ ∧ FailedAll kb [] goals b) := by
  obtain ⟨levels, rfl, hne⟩ := hr
  obtain ⟨e, hcourse, hreports⟩ := course_of_prove settings levels h htrail
  have haccords := hcourse.accords
  revert hreports hne
  generalize (prove kb settings levels query b trail).1 = o
  intro hne hreports
  cases hreports with
  | valid c nodes => exact .inl ⟨c, nodes, rfl, haccords⟩
  | invalid => exact .inr ⟨rfl, haccords⟩
  | tooDeep hN => cases hlimit.symm.trans hN
  | endless => exact absurd rfl hne

/-- What some course comes to is an end, up to a renaming. -/
theorem exists_ends (h : WellPosed kb query goals b) (htrail : trail.source = ⟨.int n⟩)
    (hlimit : settings.maxDepth = none) {e : Ending}
    (hcourse : EventualCourse kb 0 [] (.goals goals) b e) (hne : e ≠ .endless) :
    ∃ r e' ps, Ends kb settings query b trail r ∧ Reports none goals r.1 e' ∧
      Agree kb kb Renamed [] [] ps e e' := by
  obtain ⟨levels, hcourse⟩ := hcourse.exists
  obtain ⟨e', hcourse', hreports⟩ := course_of_prove settings levels h htrail
  rw [hlimit] at hcourse' hreports
  obtain ⟨hg, hb⟩ := h.regular
  have hkb := h.kb.mono Criterion.legible_implies_regular
  have hg' : ∀ g ∈ goals ++ [], g.meets .regular = true := by rwa [List.append_nil]
  obtain ⟨m, -, hagree⟩ := Course.agree_self hkb hg' hb h.acyclic hcourse hcourse'
  refine ⟨_, e', _, ⟨levels, rfl, fun hendless => hne ?_⟩, hreports, hagree⟩
  exact hagree.eq_endless_iff.2 (hreports.eq_endless_iff.1 hendless)

theorem Reports.eq_of_proved {limit : Option Nat} {o : Outcome ProofTree}
    {nodes : List ProofNode} (h : Reports limit goals o (.proved c nodes)) :
    o = .proved ⟨goals.map .literal, some (c, nodes)⟩ := by
  cases h
  rfl

theorem Reports.eq_of_failed {limit : Option Nat} {o : Outcome ProofTree}
    (h : Reports limit goals o .failed) : o = .proved ⟨goals.map .literal, none⟩ := by
  cases h
  rfl

theorem SolvedAll.ends (h : WellPosed kb query goals b) (htrail : trail.source = ⟨.int n⟩)
    (hlimit : settings.maxDepth = none) (hsolved : SolvedAll kb [] goals b c) :
    ∃ r tree, Ends kb settings query b trail r ∧ r.1 = .proved tree ∧ tree.isValid = true := by
  obtain ⟨nodes, hnodes⟩ := hsolved.course 0
  obtain ⟨r, e', ps, hr, hreports, hagree⟩ := exists_ends h htrail hlimit hnodes (by simp)
  cases hagree
  exact ⟨r, _, hr, hreports.eq_of_proved, rfl⟩

theorem FailedAll.ends (h : WellPosed kb query goals b) (htrail : trail.source = ⟨.int n⟩)
    (hlimit : settings.maxDepth = none) (hfailed : FailedAll kb [] goals b) :
    ∃ r tree, Ends kb settings query b trail r ∧ r.1 = .proved tree ∧ tree.isValid = false := by
  obtain ⟨r, e', ps, hr, hreports, hagree⟩ :=
    exists_ends h htrail hlimit (hfailed.course 0) (by simp)
  cases hagree
  exact ⟨r, _, hr, hreports.eq_of_failed, rfl⟩

theorem exists_valid_iff (h : WellPosed kb query goals b) (htrail : trail.source = ⟨.int n⟩)
    (hlimit : settings.maxDepth = none) :
    (∃ r tree, Ends kb settings query b trail r ∧ r.1 = .proved tree ∧ tree.isValid = true) ↔
      ∃ c, SolvedAll kb [] goals b c := by
  constructor
  · rintro ⟨r, tree, hr, htree, hvalid⟩
    rcases hr.accords h htrail hlimit with ⟨c, nodes, -, hsolved⟩ | ⟨hnone, -⟩
    · exact ⟨c, hsolved⟩
    · obtain rfl := Outcome.proved.inj (htree.symm.trans hnone)
      cases hvalid
  · rintro ⟨c, hsolved⟩
    exact hsolved.ends h htrail hlimit

theorem exists_invalid_iff (h : WellPosed kb query goals b) (htrail : trail.source = ⟨.int n⟩)
    (hlimit : settings.maxDepth = none) :
    (∃ r tree, Ends kb settings query b trail r ∧ r.1 = .proved tree ∧ tree.isValid = false) ↔
      FailedAll kb [] goals b := by
  constructor
  · rintro ⟨r, tree, hr, htree, hvalid⟩
    rcases hr.accords h htrail hlimit with ⟨c, nodes, hsome, -⟩ | ⟨-, hfailed⟩
    · obtain rfl := Outcome.proved.inj (htree.symm.trans hsome)
      cases hvalid
    · exact hfailed
  · intro hfailed
    exact hfailed.ends h htrail hlimit

theorem not_ends_iff (h : WellPosed kb query goals b) (htrail : trail.source = ⟨.int n⟩)
    (hlimit : settings.maxDepth = none) :
    (¬ ∃ r, Ends kb settings query b trail r) ↔
      (¬ ∃ c, SolvedAll kb [] goals b c) ∧ ¬ FailedAll kb [] goals b := by
  constructor
  · intro hendless
    constructor
    · rintro ⟨c, hsolved⟩
      obtain ⟨r, -, hr, -⟩ := hsolved.ends h htrail hlimit
      exact hendless ⟨r, hr⟩
    · intro hfailed
      obtain ⟨r, -, hr, -⟩ := hfailed.ends h htrail hlimit
      exact hendless ⟨r, hr⟩
  · rintro ⟨hsolved, hfailed⟩ ⟨r, hr⟩
    rcases hr.accords h htrail hlimit with ⟨c, nodes, -, hsolved'⟩ | ⟨-, hfailed'⟩
    · exact hsolved ⟨c, hsolved'⟩
    · exact hfailed hfailed'

/-- **The search is the first-match strategy.** -/
theorem prove_firstMatch (h : WellPosed kb query goals b) (htrail : trail.source = ⟨.int n⟩)
    (hlimit : settings.maxDepth = none) :
    SearchesFirstMatch kb settings query goals b trail := by
  obtain ⟨hg, hb⟩ := h.regular
  have hkb := h.kb.mono Criterion.legible_implies_regular
  have hg' : ∀ g ∈ goals ++ [], g.meets .regular = true := by rwa [List.append_nil]
  refine ⟨exists_valid_iff h htrail hlimit, exists_invalid_iff h htrail hlimit, ?_,
    not_ends_iff h htrail hlimit, ?_, ?_⟩
  · intro c hsolved
    exact hsolved.not_failedAll hkb hg' hb h.acyclic
  · intro r tree c nodes hr htree hproof
    rcases hr.accords h htrail hlimit with ⟨c', nodes', hsome, hsolved⟩ | ⟨hnone, -⟩
    · obtain rfl := Outcome.proved.inj (htree.symm.trans hsome)
      obtain ⟨rfl, rfl⟩ := Prod.mk.inj (Option.some.inj hproof)
      obtain ⟨hc, hacc⟩ := hsolved.meets hkb hg' hb h.acyclic
      exact ⟨hsolved, answer_eq hacc hc hg⟩
    · obtain rfl := Outcome.proved.inj (htree.symm.trans hnone)
      cases hproof
  · intro c d hc hd
    obtain ⟨π, ps, hπ, hfixed⟩ := hc.exists_renaming hkb hg' hb h.acyclic hd
    rw [List.append_nil] at hfixed
    exact ⟨π, hπ.keeps, hπ.bindings, hfixed, hπ.answers_eq hg hfixed⟩

end Queries

open Family in
/-- The bindings that the search finds after a rule is rejected are those of the strategy. -/
theorem firstMatch_family :
    ∃ r tree c nodes, Resolver.Ends clauses {} (.list (Family.goals.map .literal)) start
        { source := ⟨.int 5⟩ } r ∧ r.1 = .proved tree ∧ tree.proof = some (c, nodes) ∧
      SolvedAll clauses [] Family.goals start c := by
  obtain ⟨tree, trail, hends, hvalid⟩ := Family.exists_ends
  have hsearch : SearchesFirstMatch clauses {} (.list (Family.goals.map .literal)) Family.goals
      start { source := ⟨.int 5⟩ } := prove_firstMatch wellPosed rfl rfl
  obtain ⟨⟨c, nodes⟩, hproof⟩ := Option.isSome_iff_exists.1 hvalid
  exact ⟨_, tree, c, nodes, hends, rfl, hproof,
    (hsearch.bindings _ tree c nodes hends rfl hproof).1⟩

end HornSearch
