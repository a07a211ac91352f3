/-
HornSearch/Proofs/SearchCourses.lean

The search follows a course.  Whatever becomes of a search, with a proof or without, stopped
by the depth limit or out of nesting, there is a course that ends that way
(`followsGoal_solve`, `comesTo_prove`), and no other fault can stop it.

`Shows limit proof o e` says that an outcome `o` is what an ending `e` says, and `Follows`
that the outcome of a computation for a task is the ending of a course of the task.  The depth
limit stops a search by a fault that is worded on the spot, so that it takes a goal with a
text to be stopped by `Fault.depthLimit` (`LimitFault`).
-/
import HornSearch.Proofs.Outcomes

namespace HornSearch

variable {α β : Type} {n m k : Int} {b c : Bindings} {ls pending : List Literal} {goal : Literal}

/-! ### The fault of the depth limit -/

/-- The fault that stops a search at a goal below the limit `N`.  It has the limit and the goal,
or it is about a number in them that is too long to be written. -/
inductive LimitFault (N : Nat) (goal : Literal) : Fault → Prop where
  | depthLimit {text : String} :
      depthMessage N goal = .ok text → LimitFault N goal (.depthLimit N goal)
  | tooLong : depthMessage N goal = .error .tooLong → LimitFault N goal (.numeral .tooLong)

/-- It is the wording of the fault that can fail. -/
theorem depthFault_eq {N : Nat} : Resolver.depthFault N goal =
    match depthMessage N goal with
    | .ok _ => .depthLimit N goal
    | .error flaw => flaw.fault := by
  unfold Resolver.depthFault depthMessage Literal.text? Value.text? Value.shownAs
  cases (Value.int N).flaws with
  | nil => cases goal.toValue.flaws <;> rfl
  | cons flaw flaws => rfl

theorem limitFault_depthFault {N : Nat} (hgoal : goal.meets .legible = true) :
    LimitFault N goal (Resolver.depthFault N goal) := by
  have hnumber : FailsWith (· = .tooLong) (Value.int N).text? :=
    Value.failsWith_tooLong (Value.isFreeOf_of_isPlain rfl)
  have hmessage : FailsWith (· = .tooLong) (depthMessage N goal) :=
    hnumber.bind fun _ _ => FailsWith.bind
      (Value.failsWith_tooLong (Literal.isFreeOf_of_legible hgoal)) fun _ _ => failsWith_ok _
  rw [depthFault_eq]
  rcases e : depthMessage N goal with flaw | text
  · obtain rfl := hmessage flaw e
    exact .tooLong e
  · exact .depthLimit e

/-- Where the limit and the goal have texts, the fault has the limit and the goal. -/
theorem LimitFault.eq_depthLimit {N : Nat} {fault : Fault} (h : LimitFault N goal fault)
    (hN : (Value.int N).hasText = true) (hgoal : goal.toValue.hasText = true) :
    fault = .depthLimit N goal := by
  have hmessage : ∃ text, depthMessage N goal = .ok text := by
    have htext : goal.text? = .ok _ := Value.text?_eq hgoal
    rw [depthMessage, Value.text?_eq hN, htext]
    exact ⟨_, rfl⟩
  obtain ⟨text, htext⟩ := hmessage
  cases h with
  | depthLimit => rfl
  | tooLong hlong => cases htext.symm.trans hlong

/-- The limit `N` stops a search at a goal. -/
def StoppedAt (N : Nat) (goal : Literal) (o : Outcome α) : Prop :=
  ∃ fault, LimitFault N goal fault ∧ o = .stopped fault

theorem LimitFault.ne_endless {N : Nat} {fault : Fault} (h : LimitFault N goal fault) :
    fault ≠ .endless := by
  cases h <;> simp

theorem StoppedAt.ne_endless {N : Nat} {o : Outcome α} (h : StoppedAt N goal o) :
    o ≠ .stopped .endless := by
  rintro rfl
  obtain ⟨fault, hfault, ho⟩ := h
  obtain rfl := Outcome.stopped.inj ho
  exact hfault.ne_endless rfl

/-- Whether the limit stopped the search by its own fault. -/
def Outcome.isDepthLimit : Outcome α → Bool
  | .stopped (.depthLimit _ _) => true
  | _ => false

/-- Whether the search was stopped by a number that is too long to be written. -/
def Outcome.isTooLong : Outcome α → Bool
  | .stopped (.numeral .tooLong) => true
  | _ => false

theorem Outcome.isDepthLimit_iff {o : Outcome α} :
    o.isDepthLimit = true ↔ ∃ N goal, o = .stopped (.depthLimit N goal) := by
  unfold isDepthLimit
  split <;> simp_all

theorem Outcome.isTooLong_iff {o : Outcome α} :
    o.isTooLong = true ↔ o = .stopped (.numeral .tooLong) := by
  unfold isTooLong
  split <;> simp_all

namespace Roundabout

/-- Something to go around with. -/
def around (t : Term) : Literal := ⟨.str "loop", [t]⟩

/-- A single rule, which leads back to itself with some term. -/
def clauses (next : Term) : KnowledgeBase := .ofList [
  .rule ⟨around (.var (.named "X")), [around next]⟩]

end Roundabout

/-! ### Outcomes that show an ending -/

/-- The outcome of a computation is what an ending says, where `f` reads the bindings and
the nodes off a result. -/
inductive Shows (limit : Option Nat) (f : α → Bindings × List ProofNode) :
    Outcome α → Ending → Prop where
  | proved (a : α) : Shows limit f (.proved a) (.proved (f a).1 (f a).2)
  | failed : Shows limit f .failed .failed
  | tooDeep {N : Nat} {goal : Literal} {b : Bindings} {fault : Fault} :
      limit = some N → LimitFault N (goal.instantiate b.solution) fault →
      Shows limit f (.stopped fault) (.tooDeep goal b)
  | endless : Shows limit f (.stopped .endless) .endless

/-- The bindings and the node of a single goal. -/
def oneProof (r : Bindings × ProofNode) : Bindings × List ProofNode := (r.1, [r.2])

namespace Shows

variable {limit : Option Nat} {f : α → Bindings × List ProofNode} {o : Outcome α}
variable {e : Ending}

/-- What halts is not proved, and shows the same ending as another kind of result. -/
theorem halt (h : Shows limit f o e) {o' : Outcome β} (hhalt : SameHalt o o')
    (g : β → Bindings × List ProofNode) : Shows limit g o' e ∧ e.proof? = none := by
  cases hhalt with
  | failed =>
    cases h with
    | failed => exact ⟨.failed, rfl⟩
  | stopped fault =>
    cases h with
    | tooDeep hlimit hfault => exact ⟨.tooDeep hlimit hfault, rfl⟩
    | endless => exact ⟨.endless, rfl⟩

theorem after {o : Outcome (Bindings × List ProofNode)} (h : Shows limit id o e)
    (node : ProofNode) : Shows limit id (o.map fun r => (r.1, node :: r.2)) (e.after [node]) := by
  cases h with
  | proved r => exact .proved (f := id) (r.1, node :: r.2)
  | failed => exact .failed
  | tooDeep hlimit hfault => exact .tooDeep hlimit hfault
  | endless => exact .endless

theorem close {o : Outcome (Bindings × List ProofNode)} (h : Shows limit id o e) (goal : Literal)
    (copy : Rule) (depth : Nat) :
    Shows limit oneProof (o.map fun r => (r.1, .byRule goal copy r.2 depth))
      (e.close goal copy depth) := by
  cases h with
  | proved r => exact .proved (f := oneProof) (r.1, .byRule goal copy r.2 depth)
  | failed => exact .failed
  | tooDeep hlimit hfault => exact .tooDeep hlimit hfault
  | endless => exact .endless

end Shows

/-! ### The search -/

section Solver

open Journaled

variable {kb : KnowledgeBase} {settings : Settings} {limit : Option Nat} {levels depth : Nat}
variable {goals : List Literal} {task : Task} {e : Ending} {p : Criterion}

/-- What is in play at the end: with a proof the pending goals, and a goal that is too deep. -/
def Ending.InPlay (p : Criterion) (m : Int) (pending : List Literal) : Ending → Prop
  | .proved c _ => HornSearch.InPlay p m pending c
  | .tooDeep goal c => HornSearch.InPlay p m [goal] c
  | .failed | .endless => True

theorem Ending.InPlay.after {nodes : List ProofNode} (h : e.InPlay p m pending) :
    (e.after nodes).InPlay p m pending := by
  cases e <;> exact h

theorem Ending.InPlay.close {copy : Rule} (h : e.InPlay p m pending) :
    (e.close goal copy depth).InPlay p m pending := by
  cases e <;> exact h

/-- Without a proof it makes no difference what is pending. -/
theorem Ending.InPlay.halt (h : e.InPlay p m ls) (hproof : e.proof? = none) :
    e.InPlay p m pending := by
  cases e with
  | proved => cases hproof
  | failed | endless => trivial
  | tooDeep => exact h

/-- The outcome is the ending of a course of the task. -/
def Follows (p : Criterion) (kb : KnowledgeBase) (limit : Option Nat) (levels depth : Nat)
    (pending : List Literal) (task : Task) (b : Bindings)
    (f : α → Bindings × List ProofNode) (m : Int) (o : Outcome α) : Prop :=
  ∃ e, Course kb limit levels depth pending task b e ∧ Shows limit f o e ∧ e.InPlay p m pending

/-- The solver of single goals follows courses. -/
def FollowsGoal (p : Criterion) (kb : KnowledgeBase) (limit : Option Nat) (levels depth : Nat)
    (solver : Literal → List Item → Bindings → Journaled (Bindings × ProofNode)) : Prop :=
  ∀ goal pending b n, InPlay p n (goal :: pending) b →
    ComesTo (solver goal (pending.map .literal) b) n
      (Follows p kb limit levels depth pending (.goal goal) b oneProof)

/-- The solver of conjunctions follows courses, besides pending goals. -/
def FollowsGoals (p : Criterion) (kb : KnowledgeBase) (limit : Option Nat) (levels depth : Nat)
    (pending : List Literal)
    (solver : List Literal → Bindings → Journaled (Bindings × List ProofNode)) : Prop :=
  ∀ goals b n, InPlay p n (goals ++ pending) b →
    ComesTo (solver goals b) n (Follows p kb limit levels depth pending (.goals goals) b id)

/-- The goals after one that is proved go on from its bindings. -/
theorem Follows.cons {node : ProofNode} {o : Outcome (Bindings × List ProofNode)}
    (hgoal : Course kb limit levels depth (goals ++ pending) (.goal goal) b (.proved c [node]))
    (h : Follows p kb limit levels depth pending (.goals goals) c id m o) :
    Follows p kb limit levels depth pending (.goals (goal :: goals)) b id m
      (o.map fun r => (r.1, node :: r.2)) := by
  obtain ⟨e, hcourse, hshows, hplay⟩ := h
  exact ⟨e.after [node], .cons hgoal hcourse, hshows.after node, hplay.after⟩

theorem followsGoals_solveAll
    {solver : Literal → List Item → Bindings → Journaled (Bindings × ProofNode)}
    (h : FollowsGoal p kb limit levels depth solver) (pending : List Literal) :
    FollowsGoals p kb limit levels depth pending
      (Journaled.solveAll solver (pending.map .literal)) := by
  intro goals
  induction goals with
  | nil =>
    intro b n hplay
    exact comesTo_pure ⟨_, .nil, .proved (f := id) (b, []), hplay⟩
  | cons goal goals ih =>
    intro b n hplay
    have hgoal := h goal (goals ++ pending) b n hplay
    rw [List.map_append] at hgoal
    refine hgoal.bind ?_ ?_
    · rintro k ⟨c, node⟩ - ⟨e, hcourse, hshows, hplay'⟩
      cases hshows
      have hrest := ih c k hplay'
      exact hrest.map (fun _ => rfl) fun m o _ ho => ho.cons hcourse
    · rintro k o o' - ⟨e, hcourse, hshows, hplay'⟩ hhalt
      obtain ⟨hshows', hproof⟩ := hshows.halt hhalt id
      exact ⟨e, .halt hcourse hproof, hshows', hplay'.halt hproof⟩

/-- The outcome of a task that ends as the rest of it does. -/
theorem Follows.imp {task' : Task} {o : Outcome (Bindings × ProofNode)} {levels' : Nat}
    (h : Follows p kb limit levels depth pending task b oneProof m o)
    (himp : ∀ e, Course kb limit levels depth pending task b e →
      Course kb limit levels' depth pending task' b e) :
    Follows p kb limit levels' depth pending task' b oneProof m o := by
  obtain ⟨e, hcourse, hshows, hplay⟩ := h
  exact ⟨e, himp e hcourse, hshows, hplay⟩

/-- What comes of a rule: its head does not unify, or its body ends in some way. -/
inductive RuleFollows (p : Criterion) (kb : KnowledgeBase) (limit : Option Nat) (levels depth : Nat)
    (pending : List Literal) (goal : Literal) (b : Bindings) (rule : Rule) (m : Int) :
    Outcome (Bindings × ProofNode) → Prop where
  | clash {copy : Rule} : FreshCopy rule copy (goal :: pending) b →
      unifyLiterals goal copy.head b = .ok none →
      RuleFollows p kb limit levels depth pending goal b rule m .failed
  | body {copy : Rule} {c : Bindings} {e : Ending} {o : Outcome (Bindings × ProofNode)} :
      FreshCopy rule copy (goal :: pending) b → unifyLiterals goal copy.head b = .ok (some c) →
      Course kb limit levels (depth + 1) pending (.goals copy.body) c e →
      Shows limit oneProof o (e.close goal copy depth) →
      e.InPlay p m pending →
      RuleFollows p kb limit levels depth pending goal b rule m o

theorem comesTo_solveByRule
    {solveBody : List Literal → Bindings → Journaled (Bindings × List ProofNode)}
    (hbody : FollowsGoals p kb limit levels (depth + 1) pending solveBody)
    (hplay : InPlay p n (goal :: pending) b) {rule : Rule} (hr : rule.meets p = true) :
    ComesTo (solveByRule settings solveBody goal depth (pending.map .literal) b rule) n
      (RuleFollows p kb limit levels depth pending goal b rule) := by
  have hregular := Rule.meets_mono hplay.kept.regular hr
  obtain ⟨-, hgoalWithin⟩ := hplay.head
  refine (comesTo_copy hregular).bind ?_ ?_
  · rintro k copy - ⟨copy', hcopy', hcopied⟩
    obtain rfl := Outcome.proved.inj hcopy'
    have hfresh := hplay.freshCopy hcopied
    have hlegible := Rule.meets_mono hplay.kept.legible (hcopied.meets hplay.kept hr)
    obtain ⟨unified, hunify⟩ := unifyLiterals_total hgoalWithin.regular
      hcopied.head_within.regular hplay.bindings.meets hplay.acyclic
    refine (comesTo_ofChecked hunify).andThen ?_
    refine ComesTo.recordIf ⟨⟨goal, rfl, hplay.legible.1⟩, hlegible⟩ ?_
    cases unified with
    | none => exact comesTo_fail (.clash hfresh hunify)
    | some c =>
      have hrest := hbody copy.body c k (hplay.enter hr hcopied hunify)
      refine hrest.map (fun _ => rfl) ?_
      rintro m o - ⟨e, hcourse, hshows, hplay'⟩
      exact .body hfresh hunify hcourse (hshows.close goal copy depth) hplay'
  · rintro m o o' - ⟨copy, rfl, -⟩ hhalt
    cases hhalt

theorem comesTo_solveByRules
    {solveBody : List Literal → Bindings → Journaled (Bindings × List ProofNode)}
    (hbody : FollowsGoals p kb limit levels (depth + 1) pending solveBody)
    (hplay : InPlay p n (goal :: pending) b) {rules : List Rule}
    (hrules : ∀ r ∈ rules, r.meets p = true) :
    ComesTo (solveByRules settings solveBody goal depth (pending.map .literal) b rules) n
      (Follows p kb limit levels depth pending (.rules goal rules) b oneProof) := by
  induction rules generalizing n with
  | nil =>
    have hevent : (Event.failed (.literal goal) depth).Legible := ⟨goal, rfl, hplay.legible.1⟩
    refine (comesTo_record hevent).andThen ?_
    exact comesTo_fail ⟨_, .exhausted, .failed, trivial⟩
  | cons rule rules ih =>
    obtain ⟨hr, hrules⟩ := List.forall_mem_cons.1 hrules
    rw [Journaled.solveByRules]
    cases hpredicate : rule.head.predicate.equals goal.predicate with
    | false =>
      simp only [Bool.false_eq_true, if_false]
      exact (ih hplay hrules).mono fun m o _ ho => ho.imp fun e => .skip hpredicate
    | true =>
      simp only [if_true]
      refine (comesTo_solveByRule hbody hplay hr).orElse ?_ ?_
      -- the next rules are tried from where the source stands then
      · intro k hnk hfollows
        refine (ih (hplay.mono hnk) hrules).mono fun m o _ ho => ho.imp fun e hcourse => ?_
        cases hfollows with
        | clash hfresh hunify => exact .clash hpredicate hfresh hunify hcourse
        | @body copy c e' _ hfresh hunify hcourse' hshows _ =>
          cases e' with
          | failed => exact .next hpredicate hfresh hunify hcourse' hcourse
          | proved => cases hshows
          | tooDeep => cases hshows
          | endless => cases hshows
      · intro m o _ hfollows hne
        cases hfollows with
        | clash => exact absurd rfl hne
        | @body copy c e _ hfresh hunify hcourse hshows hplay' =>
          have hne' : e ≠ .failed := by
            rintro rfl
            cases hshows
            exact hne rfl
          exact ⟨_, .take hpredicate hfresh hunify hcourse hne', hshows, hplay'.close⟩

/-- Looking for a fact never fails on regular literals. -/
theorem KnowledgeBase.firstMatch_total {facts : List Literal}
    (hfacts : ∀ f ∈ facts, f.meets .regular = true) (hgoal : goal.meets .regular = true)
    (hb : b.Meets .regular) (hac : b.Acyclic) :
    ∃ found, KnowledgeBase.firstMatch goal b facts = .ok found := by
  induction facts with
  | nil => exact ⟨none, rfl⟩
  | cons fact facts ih =>
    obtain ⟨hfact, hfacts⟩ := List.forall_mem_cons.1 hfacts
    obtain ⟨r, hr⟩ := unifyLiterals_total hgoal hfact hb hac
    cases r with
    | none =>
      rw [KnowledgeBase.firstMatch, hr]
      exact ih hfacts
    | some c =>
      rw [KnowledgeBase.firstMatch, hr]
      exact ⟨_, rfl⟩

/-! ### The depth limit -/

/-- A goal that is not too deep goes on. -/
theorem guardDepth_of_allows (h : Allows settings.maxDepth depth) (goal : Literal)
    (b : Bindings) : Resolver.guardDepth settings goal depth b = pure () := by
  unfold Resolver.guardDepth
  cases hmax : settings.maxDepth with
  | none => rfl
  | some N => exact if_neg (Nat.not_lt.2 (h N hmax))

/-- A goal that is too deep stops the search, by the fault of the limit and of the goal under
its bindings. -/
theorem guardDepth_of_exceeds {N : Nat} (hN : settings.maxDepth = some N) (hlt : N < depth)
    (hgoal : goal.meets .regular = true) (hb : b.Meets .regular) (hac : b.Acyclic) :
    Resolver.guardDepth settings goal depth b =
      Search.stop (Resolver.depthFault N (goal.instantiate b.solution)) := by
  unfold Resolver.guardDepth
  rw [hN]
  simp only [if_pos hlt, hac.substituteLiteral_eq hb hgoal, Search.ofChecked]
  rfl

/-- A goal is visited, and the search goes on only if it is not too deep. -/
theorem comesTo_visit (hplay : InPlay p n (goal :: pending) b)
    {f : Bindings × ProofNode → Bindings × List ProofNode}
    {rest : Journaled (Bindings × ProofNode)}
    (hrest : Allows settings.maxDepth depth → ComesTo rest n
      (Follows p kb settings.maxDepth levels depth pending (.goal goal) b f)) :
    ComesTo (do
      note (.visited goal depth b)
      lift (Resolver.guardDepth settings goal depth b)
      rest) n (Follows p kb settings.maxDepth levels depth pending (.goal goal) b f) := by
  obtain ⟨hgoal, hb⟩ := hplay.legible
  refine (comesTo_visited ⟨hgoal, hb, hplay.acyclic⟩).andThen ?_
  by_cases hallows : Allows settings.maxDepth depth
  · rw [guardDepth_of_allows hallows]
    exact ComesTo.andThen (comesTo_pure ⟨rfl, rfl⟩) (hrest hallows)
  · obtain ⟨N, hN, hlt⟩ : ∃ N, settings.maxDepth = some N ∧ N < depth := by
      simpa [Allows] using hallows
    rw [guardDepth_of_exceeds hN hlt hplay.head.2.regular hplay.bindings.meets hplay.acyclic]
    have hlegible := Literal.meets_mono hplay.kept.legible hplay.instantiate.1
    exact comesTo_stop_bind
      ⟨_, .tooDeep hallows, .tooDeep hN (limitFault_depthFault hlegible), hplay.alone⟩

/-- **The search follows a course.** -/
theorem followsGoal_solve (hkb : kb.Meets p) (levels depth : Nat) :
    FollowsGoal p kb settings.maxDepth levels depth (Journaled.solve kb settings levels depth) := by
  -- on the nesting that is granted; goals of a body have one level less, one deeper
  induction levels generalizing depth with
  | zero =>
    intro goal pending b n hplay
    refine comesTo_visit hplay fun hallows => ?_
    exact comesTo_stop ⟨_, .endless hallows, .endless, trivial⟩
  | succ levels ih =>
    intro goal pending b n hplay
    refine comesTo_visit hplay fun hallows => ?_
    obtain ⟨-, hgoalWithin⟩ := hplay.head
    obtain ⟨hlegible, -⟩ := hplay.legible
    have htried : (Event.tried (.literal goal) depth).Legible := ⟨goal, rfl, hlegible⟩
    have hfacts : ∀ f ∈ kb.facts, f.meets .regular = true := fun f hf =>
      Literal.meets_mono hplay.kept.regular (hkb.facts f hf).1
    obtain ⟨found, hfound⟩ := KnowledgeBase.firstMatch_total hfacts hgoalWithin.regular
      hplay.bindings.meets hplay.acyclic
    refine (comesTo_record htried).andThen ((comesTo_ofChecked hfound).andThen ?_)
    cases found with
    | none =>
      have hbody := followsGoals_solveAll (ih (depth + 1)) pending
      refine (comesTo_solveByRules hbody hplay hkb.rules).mono fun m o _ ho => ho.imp fun e => ?_
      exact .rules hallows hfound
    | some match? =>
      obtain ⟨fact, c⟩ := match?
      obtain ⟨hfact, hunify⟩ := KnowledgeBase.firstMatch_eq_some hfound
      obtain ⟨hmeets, hground⟩ := hkb.facts fact hfact
      have hclosed : (Event.closed (.literal goal) fact).Legible :=
        ⟨⟨goal, rfl, hlegible⟩, Literal.meets_mono hplay.kept.legible hmeets⟩
      refine (comesTo_record hclosed).andThen (comesTo_pure ?_)
      refine ⟨_, .fact hallows hfound, .proved (c, ProofNode.byFact goal fact depth), ?_⟩
      exact hplay.join hmeets (Literal.within_of_isGround (hfacts fact hfact) hground) hunify

/-! ### Queries -/

theorem Journaled.lift_bind (s : Search α) (next : α → Search β) :
    lift (s >>= next) = lift s >>= fun a => lift (next a) := by
  funext trail
  show (Search.bind s next trail, _) = Journaled.bind (lift s) (fun a => lift (next a)) trail
  rcases e : s trail with ⟨_ | _ | _, _⟩ <;> simp [Search.bind, Journaled.bind, lift, e]

theorem KnowledgeBase.Meets.mono {p q : Criterion} (h : kb.Meets p) (hpq : p.Implies q) :
    kb.Meets q where
  facts f hf := ⟨Literal.meets_mono hpq (h.facts f hf).1, (h.facts f hf).2⟩
  rules r hr := Rule.meets_mono hpq (h.rules r hr)

/-- What a search can be asked: the knowledge base, the goals and the starting bindings are
legible, and the bindings are acyclic. -/
structure WellPosed (kb : KnowledgeBase) (query : Item) (goals : List Literal) (b : Bindings) :
    Prop where
  kb : kb.Meets .legible
  query : Resolver.goalsOf query = .ok (goals.map .literal)
  goals : ∀ g ∈ goals, g.meets .legible = true
  start : b.Meets .legible
  acyclic : b.Acyclic

theorem WellPosed.regular {query : Item} (h : WellPosed kb query goals b) :
    (∀ g ∈ goals, g.meets .regular = true) ∧ b.Meets .regular :=
  ⟨fun g hg => Literal.meets_mono Criterion.legible_implies_regular (h.goals g hg),
    h.start.mono Criterion.legible_implies_regular⟩

theorem Family.wellPosed :
    WellPosed Family.clauses (.list (Family.goals.map .literal)) Family.goals Family.start where
  kb := ⟨by decide, by decide⟩
  query := rfl
  goals := by decide
  start := ⟨List.forall_mem_singleton.2 ⟨_, _, rfl, rfl, rfl⟩, List.nodup_singleton _⟩
  acyclic := Family.start_acyclic

/-- The outcome of a query is what an ending says. -/
inductive Reports (limit : Option Nat) (goals : List Literal) : Outcome ProofTree → Ending → Prop
  where
  | valid (c : Bindings) (nodes : List ProofNode) :
      Reports limit goals (.proved ⟨goals.map .literal, some (c, nodes)⟩) (.proved c nodes)
  | invalid : Reports limit goals (.proved ⟨goals.map .literal, none⟩) .failed
  | tooDeep {N : Nat} {goal : Literal} {b : Bindings} {fault : Fault} :
      limit = some N → LimitFault N (goal.instantiate b.solution) fault →
      Reports limit goals (.stopped fault) (.tooDeep goal b)
  | endless : Reports limit goals (.stopped .endless) .endless

/-- From where a query starts it follows a course of its goals. -/
theorem comesTo_proveFrom (hkb : kb.Meets p) (hplay : InPlay p n goals b) :
    ComesTo (Journaled.proveFrom kb settings levels goals b) n fun m o =>
      ∃ e, Course kb settings.maxDepth levels 0 [] (.goals goals) b e ∧
        Reports settings.maxDepth goals o e ∧ e.InPlay p m [] := by
  have hgoal : FollowsGoal p kb settings.maxDepth levels 0 (Journaled.solve kb settings levels 0) :=
    followsGoal_solve hkb levels 0
  have hsolve := followsGoals_solveAll hgoal [] goals b n (by rwa [List.append_nil])
  rw [List.map_nil, ← Journaled.solveGoals_eq] at hsolve
  -- a tree is made of a proof, and failing is answered by a tree without one
  have hproof : ComesTo (do
      let proof ← Journaled.solveGoals kb settings levels (goals.map .literal) b
      return ProofTree.mk (goals.map .literal) (some proof)) n
      fun m o => ∃ o', Follows p kb settings.maxDepth levels 0 [] (.goals goals) b id m o' ∧
        o = o'.map fun proof => ⟨goals.map .literal, some proof⟩ :=
    hsolve.map (fun _ => rfl) fun m o _ ho => ⟨o, ho, rfl⟩
  refine hproof.orElse ?_ ?_
  · rintro m - ⟨o, ⟨e, hcourse, hshows, -⟩, ho⟩
    have hunproved : (Event.unproved (goals.map .literal)).Legible :=
      ⟨goals, rfl, fun g hg => Literal.meets_mono hplay.kept.legible (hplay.literals g hg)⟩
    rw [Resolver.unproved, Journaled.lift_bind]
    refine (comesTo_record hunproved).andThen (comesTo_pure ?_)
    cases hshows with
    | failed => exact ⟨_, hcourse, .invalid, trivial⟩
    | proved => cases ho
    | tooDeep => cases ho
    | endless => cases ho
  · rintro m o - ⟨o', ⟨e, hcourse, hshows, hplay'⟩, rfl⟩ hne
    refine ⟨e, hcourse, ?_, hplay'⟩
    cases hshows with
    | failed => exact absurd rfl hne
    | proved r => exact .valid r.1 r.2
    | tooDeep hlimit hfault => exact .tooDeep hlimit hfault
    | endless => exact .endless

/-- **A query follows a course** of its goals, if it meets a criterion that is kept. -/
theorem comesTo_prove {query : Item} (hp : p.KeptFrom n) (hkb : kb.Meets p)
    (hquery : Resolver.goalsOf query = .ok (goals.map .literal))
    (hg : ∀ g ∈ goals, g.meets p = true) (hb : b.Meets p) (hac : b.Acyclic) :
    ComesTo (Journaled.prove kb settings levels query b) n fun m o =>
      ∃ e, Course kb settings.maxDepth levels 0 [] (.goals goals) b e ∧
        Reports settings.maxDepth goals o e ∧ e.InPlay p m [] := by
  obtain ⟨k, hstart, hprove⟩ := Journaled.prove_eq hquery
    (fun g hmem => Literal.meets_mono hp.regular (hg g hmem)) (hb.mono hp.regular) n
  have hplay : InPlay p k goals b :=
    ⟨hp.mono hstart.le, hg, hstart.goals_within, hb, hstart.bindings_within, hac⟩
  intro trail htrail
  unfold erase steps
  rw [hprove _ _ _ _ htrail]
  obtain ⟨m, hkm, hcomes⟩ := comesTo_proveFrom hkb hplay { trail with source := ⟨.int k⟩ } rfl
  exact ⟨m, hstart.le.trans hkm, hcomes⟩

variable (settings levels) in
theorem WellPosed.comesTo {query : Item} (h : WellPosed kb query goals b) (n : Int) :
    ComesTo (Journaled.prove kb settings levels query b) n fun m o =>
      ∃ e, Course kb settings.maxDepth levels 0 [] (.goals goals) b e ∧
        Reports settings.maxDepth goals o e ∧ e.InPlay .legible m [] :=
  comesTo_prove (Criterion.keptFrom_legible n) h.kb h.query h.goals h.start h.acyclic

variable (settings levels) in
/-- What a query comes to is the ending of a course of its goals. -/
theorem Resolver.course_of_prove {query : Item} (h : WellPosed kb query goals b) {trail : Trail}
    (htrail : trail.source = ⟨.int n⟩) :
    ∃ e, Course kb settings.maxDepth levels 0 [] (.goals goals) b e ∧
      Reports settings.maxDepth goals (Resolver.prove kb settings levels query b trail).1 e := by
  obtain ⟨m, -, -, -, e, hcourse, hreports, -⟩ :=
    h.comesTo settings levels n trail htrail
  rw [erase_prove] at hreports
  exact ⟨e, hcourse, hreports⟩

/-- Everything that a query visits is sound. -/
theorem Journaled.sound_of_mem_steps {query : Item} (h : WellPosed kb query goals b)
    {trail : Trail} (htrail : trail.source = ⟨.int n⟩) {step : Step}
    (hstep : step ∈ (Journaled.prove kb settings levels query b).steps trail) : step.Sound := by
  obtain ⟨m, -, -, hsound, -⟩ := h.comesTo settings levels n trail htrail
  exact hsound step hstep

end Solver

end HornSearch
