/-
HornSearch/Proofs/DepthGuard.lean

The depth limit changes no answer, and stops a search exactly if it has to.  A bounded search
runs in lockstep with the unbounded one and its journal (`Guarded`): as long as no goal is
visited below the limit they are the same computation, and at the first such goal the bounded
one is stopped by a fault that names it, unless a number in it is too long to be written
(`LimitFault`).  The two need not be given anything for that; that the goal is legible and its
bindings have no cycle is known of all that is visited (`Journaled.sound_of_mem_steps`).

`prove_guardsDepth` puts this together with what is known of the nesting: granted more than
the limit, a bounded search always ends.
-/
import HornSearch.Proofs.Levels
import HornSearch.Proofs.SearchCourses
import Mathlib.Data.List.Permutation

namespace HornSearch

variable {α β : Type} {N M : Nat}

/-- The settings with another depth limit. -/
def Settings.limited (settings : Settings) (limit : Option Nat) : Settings :=
  { settings with maxDepth := limit }

/-- Whether the step is the visit of a goal that is deeper than a limit. -/
def Step.isDeep (N : Nat) : Step → Bool
  | .visited _ depth _ => N < depth
  | .copied _ _ _ _ => false

theorem Step.isDeep_mono (hNM : N ≤ M) {step : Step} (h : step.isDeep M = true) :
    step.isDeep N = true := by
  cases step with
  | visited goal depth b =>
    have hlt : M < depth := of_decide_eq_true h
    exact decide_eq_true (hNM.trans_lt hlt)
  | copied goal pending b copy => cases h

theorem Step.exists_of_isDeep {step : Step} (h : step.isDeep N = true) :
    ∃ goal depth b, step = .visited goal depth b ∧ N < depth := by
  cases step with
  | visited goal depth b => exact ⟨goal, depth, b, rfl, of_decide_eq_true h⟩
  | copied goal pending b copy => cases h

/-! ### Lockstep -/

/-- The search stops as the limit has it at a step. -/
def StopsAt (N : Nat) (o : Outcome α) (goal : Literal) (depth : Nat) (b : Bindings) : Prop :=
  (Step.visited goal depth b).Sound → StoppedAt N (goal.instantiate b.solution) o

/-- Without a visit below the limit in the journal of `u`, the computation `s` is `u`, and
otherwise it stops at the first of them. -/
def Guarded (N : Nat) (s : Search α) (u : Journaled α) : Prop :=
  ∀ trail, ((u.steps trail).find? (Step.isDeep N) = none ∧ s trail = u.erase trail) ∨
    ∃ goal depth b, (u.steps trail).find? (Step.isDeep N) = some (.visited goal depth b) ∧
      StopsAt N (s trail).1 goal depth b

theorem StopsAt.halt {o : Outcome α} {o' : Outcome β} {goal : Literal} {depth : Nat}
    {b : Bindings} (h : StopsAt N o goal depth b)
    (hhalt : ∀ fault, o = .stopped fault → o' = .stopped fault) : StopsAt N o' goal depth b := by
  intro hsound
  obtain ⟨fault, hfault, ho⟩ := h hsound
  exact ⟨fault, hfault, hhalt fault ho⟩

section Rules

open Journaled

variable {s other : Search α} {u uother : Journaled α}

theorem guarded_lift (s : Search α) : Guarded N s (lift s) :=
  fun _ => .inl ⟨rfl, rfl⟩

theorem guarded_pure (a : α) : Guarded N (pure a) (pure a) := guarded_lift (Search.pure a)

/-- A fresh copy is no visit. -/
theorem guarded_copy (goal : Literal) (pending : List Item) (b : Bindings) (rule : Rule) :
    Guarded N (Search.freshCopy rule) (copy goal pending b rule) := by
  intro trail
  rw [erase_copy]
  refine .inl ⟨?_, rfl⟩
  show (Journaled.bind (lift (Search.freshCopy rule)) _ trail).2.find? (Step.isDeep N) = none
  rcases e : Search.freshCopy rule trail with ⟨copy | - | fault, t⟩
  · simp only [Journaled.bind, lift, e]
    rfl
  · simp only [Journaled.bind, lift, e]
    rfl
  · simp only [Journaled.bind, lift, e]
    rfl

theorem Guarded.bind {next : α → Search β} {unext : α → Journaled β} (h : Guarded N s u)
    (hnext : ∀ a, Guarded N (next a) (unext a)) : Guarded N (s >>= next) (u >>= unext) := by
  intro trail
  show ((Journaled.bind u unext trail).2.find? _ = none ∧
      Search.bind s next trail = (Journaled.bind u unext trail).1) ∨
    ∃ goal depth b, (Journaled.bind u unext trail).2.find? _ = some (.visited goal depth b) ∧
      StopsAt N (Search.bind s next trail).1 goal depth b
  rcases h trail with ⟨hnone, heq⟩ | ⟨goal, depth, b, hfirst, hstops⟩
  -- the same so far: what comes next begins with the same trail
  · unfold erase steps at *
    rcases e : u trail with ⟨⟨a | - | fault, t⟩, js⟩
    · rw [e] at hnone heq
      simp only [Search.bind, Journaled.bind, heq, e, List.find?_append, hnone, Option.none_or]
      exact hnext a t
    · rw [e] at hnone heq
      simp only [Search.bind, Journaled.bind, heq, e]
      exact .inl ⟨hnone, trivial⟩
    · rw [e] at hnone heq
      simp only [Search.bind, Journaled.bind, heq, e]
      exact .inl ⟨hnone, trivial⟩
  · refine .inr ⟨goal, depth, b, ?_, hstops.halt fun fault hfault => ?_⟩
    · unfold steps at hfirst
      rcases e : u trail with ⟨⟨a | - | fault, t⟩, js⟩
      · rw [e] at hfirst
        simp only [Journaled.bind, e, List.find?_append, hfirst, Option.some_or]
      · rw [e] at hfirst
        simpa only [Journaled.bind, e] using hfirst
      · rw [e] at hfirst
        simpa only [Journaled.bind, e] using hfirst
    · rcases e : s trail with ⟨_, t⟩
      rw [e] at hfault
      subst hfault
      simp only [Search.bind, e]

theorem Guarded.orElse (h : Guarded N s u) (hother : Guarded N other uother) :
    Guarded N (Search.orElse s other) (Journaled.orElse u uother) := by
  intro trail
  rcases h trail with ⟨hnone, heq⟩ | ⟨goal, depth, b, hfirst, hstops⟩
  · unfold erase steps at *
    rcases e : u trail with ⟨⟨a | - | fault, t⟩, js⟩
    · rw [e] at hnone heq
      simp only [Search.orElse, Journaled.orElse, heq, e]
      exact .inl ⟨hnone, trivial⟩
    · rw [e] at hnone heq
      simp only [Search.orElse, Journaled.orElse, heq, e, List.find?_append, hnone,
        Option.none_or]
      exact hother t
    · rw [e] at hnone heq
      simp only [Search.orElse, Journaled.orElse, heq, e]
      exact .inl ⟨hnone, trivial⟩
  · refine .inr ⟨goal, depth, b, ?_, hstops.halt fun fault hfault => ?_⟩
    · unfold steps at *
      rcases e : u trail with ⟨⟨a | - | fault, t⟩, js⟩
      · rw [e] at hfirst
        simpa only [Journaled.orElse, e] using hfirst
      · rw [e] at hfirst
        simp only [Journaled.orElse, e, List.find?_append, hfirst, Option.some_or]
      · rw [e] at hfirst
        simpa only [Journaled.orElse, e] using hfirst
    · rcases e : s trail with ⟨_, t⟩
      rw [e] at hfault
      subst hfault
      simp only [Search.orElse, e]

/-- **The guard**: a goal that is visited is noted by the unbounded search, and stops the
bounded one if it is too deep. -/
theorem guarded_visit {settings : Settings} {goal : Literal} {depth : Nat} {b : Bindings}
    (h : Guarded N s u) :
    Guarded N (do
        Resolver.guardDepth (settings.limited (some N)) goal depth b
        s)
      (do
        note (.visited goal depth b)
        lift (Resolver.guardDepth (settings.limited none) goal depth b)
        u) := by
  intro trail
  have hsteps : (do
      note (.visited goal depth b)
      lift (Resolver.guardDepth (settings.limited none) goal depth b)
      u).steps trail = .visited goal depth b :: u.steps trail := rfl
  have herase : (do
      note (.visited goal depth b)
      lift (Resolver.guardDepth (settings.limited none) goal depth b)
      u).erase trail = u.erase trail := rfl
  rw [hsteps, herase]
  by_cases hlt : N < depth
  · have hdeep : (Step.visited goal depth b).isDeep N = true := decide_eq_true hlt
    refine .inr ⟨goal, depth, b, List.find?_cons_of_pos hdeep, ?_⟩
    rintro ⟨hgoal, hb, hac⟩
    have hlegible := Literal.meets_solution Criterion.legible_implies_regular hgoal hb hac
    rw [guardDepth_of_exceeds rfl hlt (Literal.meets_mono Criterion.legible_implies_regular hgoal)
      (hb.mono Criterion.legible_implies_regular) hac]
    exact ⟨_, limitFault_depthFault hlegible, rfl⟩
  · have hshallow : ¬ (Step.visited goal depth b).isDeep N = true := by
      simpa [Step.isDeep] using hlt
    have hallows : Allows (settings.limited (some N)).maxDepth depth := by
      intro M hM
      obtain rfl := Option.some.inj hM
      exact Nat.not_lt.1 hlt
    rw [List.find?_cons_of_neg hshallow, guardDepth_of_allows hallows]
    exact h trail

end Rules

/-! ### The search -/

section Solver

variable {kb : KnowledgeBase} {settings : Settings} {pending : List Item}

theorem guarded_solveAll {solver : Resolver.GoalSolver}
    {usolver : Literal → List Item → Bindings → Journaled (Bindings × ProofNode)}
    (h : ∀ goal pending b, Guarded N (solver goal b) (usolver goal pending b))
    (pending : List Item) (goals : List Literal) (b : Bindings) :
    Guarded N (Resolver.solveAll solver goals b) (Journaled.solveAll usolver pending goals b) := by
  induction goals generalizing b with
  | nil => exact guarded_pure _
  | cons goal goals ih =>
    refine (h goal _ b).bind fun r => ?_
    exact (ih r.1).bind fun _ => guarded_pure _

theorem guarded_solveByRule {solver : Resolver.GoalsSolver}
    {usolver : List Literal → Bindings → Journaled (Bindings × List ProofNode)}
    (h : ∀ goals b, Guarded N (solver goals b) (usolver goals b)) (goal : Literal) (depth : Nat)
    (b : Bindings) (rule : Rule) :
    Guarded N (Resolver.solveByRule (settings.limited (some N)) solver goal depth b rule)
      (Journaled.solveByRule (settings.limited none) usolver goal depth pending b rule) := by
  refine (guarded_copy goal pending b rule).bind fun copy => ?_
  refine (guarded_lift _).bind fun unified => ?_
  have hbody : ∀ c, Guarded N (do
      let r ← solver copy.body c
      return (r.1, ProofNode.byRule goal copy r.2 depth)) (do
      let r ← usolver copy.body c
      return (r.1, ProofNode.byRule goal copy r.2 depth)) :=
    fun c => (h copy.body c).bind fun _ => guarded_pure _
  have htrace : ∀ limit, (settings.limited limit).trace = settings.trace := fun _ => rfl
  rw [htrace, htrace]
  cases unified with
  | none =>
    cases settings.trace with
    | false => exact guarded_lift _
    | true => exact (guarded_lift _).bind fun _ => guarded_lift _
  | some c =>
    cases settings.trace with
    | false => exact hbody c
    | true => exact (guarded_lift _).bind fun _ => hbody c

theorem guarded_solveByRules {solver : Resolver.GoalsSolver}
    {usolver : List Literal → Bindings → Journaled (Bindings × List ProofNode)}
    (h : ∀ goals b, Guarded N (solver goals b) (usolver goals b)) (goal : Literal) (depth : Nat)
    (b : Bindings) (rules : List Rule) :
    Guarded N (Resolver.solveByRules (settings.limited (some N)) solver goal depth b rules)
      (Journaled.solveByRules (settings.limited none) usolver goal depth pending b rules) := by
  induction rules with
  | nil => exact (guarded_lift _).bind fun _ => guarded_lift _
  | cons rule rules ih =>
    rw [Resolver.solveByRules, Journaled.solveByRules]
    split
    · exact (guarded_solveByRule h goal depth b rule).orElse ih
    · exact ih

theorem guarded_solve (levels depth : Nat) (goal : Literal) (pending : List Item)
    (b : Bindings) :
    Guarded N (Resolver.solve kb (settings.limited (some N)) levels depth goal b)
      (Journaled.solve kb (settings.limited none) levels depth goal pending b) := by
  induction levels generalizing depth goal pending b with
  | zero => exact guarded_visit (guarded_lift _)
  | succ levels ih =>
    have hbody := guarded_solveAll (ih (depth + 1)) pending
    refine guarded_visit ?_
    refine (guarded_lift _).bind fun _ => ?_
    refine (guarded_lift _).bind fun found => ?_
    cases found with
    | none => exact guarded_solveByRules hbody goal depth b kb.rules
    | some match? => exact (guarded_lift _).bind fun _ => guarded_pure _

theorem guarded_solveGoals (levels : Nat) (goals : List Item) (b : Bindings) :
    Guarded N (Resolver.solveGoals kb (settings.limited (some N)) levels goals b)
      (Journaled.solveGoals kb (settings.limited none) levels goals b) := by
  induction goals generalizing b with
  | nil => exact guarded_pure _
  | cons goal goals ih =>
    have hrest : ∀ r : Bindings × ProofNode, Guarded N (do
        let rest ← Resolver.solveGoals kb (settings.limited (some N)) levels goals r.1
        return (rest.1, r.2 :: rest.2)) (do
        let rest ← Journaled.solveGoals kb (settings.limited none) levels goals r.1
        return (rest.1, r.2 :: rest.2)) :=
      fun r => (ih r.1).bind fun _ => guarded_pure _
    cases goal with
    | literal l => exact (guarded_solve levels 0 l goals b).bind hrest
    | term => exact (guarded_lift _).bind hrest
    | rule => exact (guarded_lift _).bind hrest
    | list => exact (guarded_lift _).bind hrest
    | tuple => exact (guarded_lift _).bind hrest
    | raw => exact (guarded_lift _).bind hrest

/-- **Bounded and unbounded search run in lockstep** until a goal is too deep. -/
theorem guarded_prove (levels : Nat) (query : Item) (b : Bindings) :
    Guarded N (Resolver.prove kb (settings.limited (some N)) levels query b)
      (Journaled.prove kb (settings.limited none) levels query b) := by
  refine (guarded_lift _).bind fun goals => ?_
  refine (guarded_lift _).bind fun serial => ?_
  refine (guarded_lift _).bind fun _ => ?_
  refine Guarded.orElse ?_ (guarded_lift _)
  exact (guarded_solveGoals levels goals b).bind fun _ => guarded_pure _

end Solver

/-! ### What the limit does -/

section Guard

open Resolver

variable {kb : KnowledgeBase} {settings : Settings} {levels : Nat} {query : Item}
variable {goals : List Literal} {b : Bindings} {trail : Trail} {n : Int}

/-- What the depth limit `N` does to a search, where the unbounded search is the one with
the same settings but no limit, and may be granted any nesting. -/
structure GuardsDepth (kb : KnowledgeBase) (settings : Settings) (levels : Nat) (query : Item)
    (b : Bindings) (trail : Trail) (N : Nat) : Prop where
  /-- The search comes to a tree, or it is stopped by the limit. -/
  ends : (∃ tree, (prove kb (settings.limited (some N)) levels query b trail).1 = .proved tree) ∨
    ∃ l, StoppedAt N l (prove kb (settings.limited (some N)) levels query b trail).1
  /-- A tree and the trail with it are the same under any larger limit, and under none. -/
  same : ∀ tree trail', prove kb (settings.limited (some N)) levels query b trail =
      (.proved tree, trail') →
    ∀ limit, (∀ M, limit = some M → N ≤ M) → ∀ levels', levels ≤ levels' →
      prove kb (settings.limited limit) levels' query b trail = (.proved tree, trail')
  /-- The search is stopped exactly if the unbounded one visits a goal below the limit. -/
  stops_iff : (∃ l, StoppedAt N l (prove kb (settings.limited (some N)) levels query b trail).1) ↔
    ∃ levels' goal depth c, Step.visited goal depth c ∈
      (Journaled.prove kb (settings.limited none) levels' query b).steps trail ∧ N < depth
  /-- The fault has the first such goal, under the bindings of that moment. -/
  goal : ∀ levels' goal depth c,
    ((Journaled.prove kb (settings.limited none) levels' query b).steps trail).find?
      (Step.isDeep N) = some (.visited goal depth c) →
    ∃ l, c.substituteLiteral goal = .ok l ∧
      StoppedAt N l (prove kb (settings.limited (some N)) levels query b trail).1
  /-- Every smaller limit stops the search as well. -/
  smaller : ∀ l, StoppedAt N l (prove kb (settings.limited (some N)) levels query b trail).1 →
    ∀ N', N' ≤ N → ∃ l', StoppedAt N' l'
      (prove kb (settings.limited (some N')) levels query b trail).1

variable (settings) in
/-- With more nesting than the limit the search comes to a tree, or it is stopped. -/
theorem proved_or_stopped (h : WellPosed kb query goals b) (htrail : trail.source = ⟨.int n⟩)
    (hlevels : N < levels) :
    (∃ tree, (prove kb (settings.limited (some N)) levels query b trail).1 = .proved tree) ∨
      ∃ l, StoppedAt N l (prove kb (settings.limited (some N)) levels query b trail).1 := by
  obtain ⟨e, hcourse, hreports⟩ :=
    course_of_prove (settings.limited (some N)) levels h htrail
  have hne : e ≠ .endless := by
    have hlimit : (settings.limited (some N)).maxDepth = some N := rfl
    exact hcourse.ne_endless hlimit hlevels
  generalize (prove kb (settings.limited (some N)) levels query b trail).1 = o at hreports ⊢
  cases hreports with
  | valid => exact .inl ⟨_, rfl⟩
  | invalid => exact .inl ⟨_, rfl⟩
  | tooDeep hlimit hfault =>
    obtain rfl := Option.some.inj hlimit
    exact .inr ⟨_, _, hfault, rfl⟩
  | endless => exact absurd rfl hne

/-- At the first visit below the limit the bounded search stops. -/
theorem stopped_of_first (h : WellPosed kb query goals b) (htrail : trail.source = ⟨.int n⟩)
    {goal : Literal} {depth : Nat} {c : Bindings}
    (hfirst : ((Journaled.prove kb (settings.limited none) levels query b).steps trail).find?
      (Step.isDeep N) = some (.visited goal depth c)) :
    ∃ l, c.substituteLiteral goal = .ok l ∧
      StoppedAt N l (prove kb (settings.limited (some N)) levels query b trail).1 := by
  have hsound := Journaled.sound_of_mem_steps h htrail (List.mem_of_find?_eq_some hfirst)
  obtain ⟨hgoal, hc, hac⟩ := hsound
  refine ⟨goal.instantiate c.solution, ?_, ?_⟩
  · exact hac.substituteLiteral_eq (hc.mono Criterion.legible_implies_regular)
      (Literal.meets_mono Criterion.legible_implies_regular hgoal)
  · have hguarded : Guarded N (prove kb (settings.limited (some N)) levels query b) _ :=
      guarded_prove levels query b
    rcases hguarded trail with ⟨hnone, -⟩ | ⟨goal', depth', c', hfirst', hstops⟩
    · rw [hnone] at hfirst
      cases hfirst
    · cases hfirst.symm.trans hfirst'
      exact hstops ⟨hgoal, hc, hac⟩

/-- Without such a visit the bounded search is the unbounded one. -/
theorem prove_eq_of_shallow
    (hnone : ((Journaled.prove kb (settings.limited none) levels query b).steps trail).find?
      (Step.isDeep N) = none) :
    prove kb (settings.limited (some N)) levels query b trail =
      prove kb (settings.limited none) levels query b trail := by
  have hguarded : Guarded N (prove kb (settings.limited (some N)) levels query b) _ :=
    guarded_prove levels query b
  rcases hguarded trail with ⟨-, heq⟩ | ⟨goal, depth, c, hfirst, -⟩
  · rw [heq, Journaled.erase_prove]
  · rw [hnone] at hfirst
    cases hfirst

/-- What is found first does not depend on how much more is granted to either search. -/
theorem stopped_of_first_of_lt (h : WellPosed kb query goals b)
    (htrail : trail.source = ⟨.int n⟩) (hlevels : N < levels) {levels' : Nat} {goal : Literal}
    {depth : Nat} {c : Bindings}
    (hfirst : ((Journaled.prove kb (settings.limited none) levels' query b).steps trail).find?
      (Step.isDeep N) = some (.visited goal depth c)) :
    ∃ l, c.substituteLiteral goal = .ok l ∧
      StoppedAt N l (prove kb (settings.limited (some N)) levels query b trail).1 := by
  obtain ⟨l, hl, hstopped⟩ := stopped_of_first h htrail hfirst
  refine ⟨l, hl, ?_⟩
  -- both amounts of nesting are enough for the bounded search
  rcases le_total levels levels' with hle | hle
  · have hends : (prove kb (settings.limited (some N)) levels query b trail).1 ≠
        .stopped .endless := by
      intro heq
      rcases proved_or_stopped settings h htrail hlevels with ⟨tree, htree⟩ | ⟨l, hl⟩
      · cases heq.symm.trans htree
      · exact hl.ne_endless heq
    rwa [← prove_eq_of_le rfl hends hle]
  · have hends : (prove kb (settings.limited (some N)) levels' query b trail).1 ≠
        .stopped .endless := hstopped.ne_endless
    rwa [prove_eq_of_le rfl hends hle]

/-- The limit stops a search exactly if a goal below it is visited. -/
theorem stopped_iff_visits (h : WellPosed kb query goals b) (htrail : trail.source = ⟨.int n⟩)
    (hlevels : N < levels) :
    (∃ l, StoppedAt N l (prove kb (settings.limited (some N)) levels query b trail).1) ↔
    ∃ levels' goal depth c, Step.visited goal depth c ∈
      (Journaled.prove kb (settings.limited none) levels' query b).steps trail ∧ N < depth := by
  constructor
  · rintro ⟨l, hl⟩
    cases hfirst : ((Journaled.prove kb (settings.limited none) levels query b).steps trail).find?
        (Step.isDeep N) with
    | none =>
      -- then the unbounded search would be stopped by the limit
      rw [prove_eq_of_shallow hfirst] at hl
      obtain ⟨e, -, hreports⟩ := course_of_prove (settings.limited none) levels h htrail
      obtain ⟨fault, hfault, ho⟩ := hl
      rw [ho] at hreports
      cases hreports with
      | tooDeep hlimit => cases hlimit
      | endless => exact absurd rfl hfault.ne_endless
    | some step =>
      obtain ⟨goal, depth, c, rfl, hlt⟩ := Step.exists_of_isDeep (List.find?_some hfirst)
      exact ⟨levels, goal, depth, c, List.mem_of_find?_eq_some hfirst, hlt⟩
  · rintro ⟨levels', goal, depth, c, hmem, hlt⟩
    have hsome : (((Journaled.prove kb (settings.limited none) levels' query b).steps trail).find?
        (Step.isDeep N)).isSome = true :=
      List.find?_isSome.2 ⟨_, hmem, decide_eq_true hlt⟩
    obtain ⟨step, hfirst⟩ := Option.isSome_iff_exists.1 hsome
    obtain ⟨goal', depth', c', rfl, -⟩ := Step.exists_of_isDeep (List.find?_some hfirst)
    obtain ⟨l, -, hl⟩ := stopped_of_first_of_lt h htrail hlevels hfirst
    exact ⟨l, hl⟩

/-- A tree that a bounded search comes to is the one of any larger limit, and of none. -/
theorem prove_eq_of_proved (h : WellPosed kb query goals b) (htrail : trail.source = ⟨.int n⟩)
    {tree : ProofTree} {trail' : Trail}
    (hprove : prove kb (settings.limited (some N)) levels query b trail = (.proved tree, trail'))
    {limit : Option Nat} (hlimit : ∀ M, limit = some M → N ≤ M) :
    prove kb (settings.limited limit) levels query b trail = (.proved tree, trail') := by
  have hshallow : ((Journaled.prove kb (settings.limited none) levels query b).steps trail).find?
      (Step.isDeep N) = none := by
    by_contra hsome
    obtain ⟨step, hfirst⟩ := Option.ne_none_iff_exists'.1 hsome
    obtain ⟨goal, depth, c, rfl, -⟩ := Step.exists_of_isDeep (List.find?_some hfirst)
    obtain ⟨l, -, fault, -, hl⟩ := stopped_of_first h htrail hfirst
    rw [hprove] at hl
    cases hl
  have hunbounded := (prove_eq_of_shallow hshallow).symm.trans hprove
  cases limit with
  | none => exact hunbounded
  | some M =>
    -- what is not deep for `N` is not deep for `M`
    have hshallow' : ((Journaled.prove kb (settings.limited none) levels query b).steps
        trail).find? (Step.isDeep M) = none := by
      rw [List.find?_eq_none] at hshallow ⊢
      intro step hstep hdeep
      exact hshallow step hstep (Step.isDeep_mono (hlimit M rfl) hdeep)
    rw [prove_eq_of_shallow hshallow', hunbounded]

/-- **The depth guard**: more nesting than the limit being granted, the limit changes no
answer, and it stops the search exactly if a goal below it is visited. -/
theorem prove_guardsDepth (h : WellPosed kb query goals b) (htrail : trail.source = ⟨.int n⟩)
    (hlevels : N < levels) : GuardsDepth kb settings levels query b trail N where
  ends := proved_or_stopped settings h htrail hlevels
  same tree trail' hprove limit hlimit levels' hle := by
    have heq := prove_eq_of_proved h htrail hprove hlimit
    exact prove_eq_of_le heq (by simp) hle
  stops_iff := stopped_iff_visits h htrail hlevels
  goal levels' goal depth c hfirst := stopped_of_first_of_lt h htrail hlevels hfirst
  smaller l hl N' hle := by
    obtain ⟨levels', goal, depth, c, hmem, hlt⟩ := (stopped_iff_visits h htrail hlevels).1 ⟨l, hl⟩
    rw [stopped_iff_visits h htrail (hle.trans_lt hlevels)]
    exact ⟨levels', goal, depth, c, hmem, hle.trans_lt hlt⟩

end Guard

open Family in
/-- A search that the limit two stops in a branch that would be given up, though its proof is
no deeper than that; under the limit three it comes to the tree of the unbounded search. -/
theorem guardsDepth_family :
    (∃ l, l.text? = .ok "parent(ann, ?Y_7)" ∧ (Resolver.prove clauses (Settings.limited {} (some 2))
        9 (.list (Family.goals.map .literal)) start { source := ⟨.int 5⟩ }).1 =
      .stopped (.depthLimit 2 l)) ∧
    ∃ tree trail', tree.isValid = true ∧ Resolver.prove clauses (Settings.limited {} none) 9
      (.list (Family.goals.map .literal)) start { source := ⟨.int 5⟩ } = (.proved tree, trail') := by
  have hguard : ∀ N, N < 9 → GuardsDepth clauses {} 9 (.list (Family.goals.map .literal)) start
      { source := ⟨.int 5⟩ } N :=
    fun N hN => prove_guardsDepth wellPosed rfl hN
  obtain ⟨goal, depth, c, hfirst, hgoal⟩ : ∃ goal depth c,
      ((Journaled.prove clauses (Settings.limited {} none) 9 (.list (Family.goals.map .literal))
        start).steps { source := ⟨.int 5⟩ }).find? (Step.isDeep 2) =
          some (.visited goal depth c) ∧
      c.substituteLiteral goal = .ok (parent (person "ann") (.var ⟨.str "Y", .int 7⟩)) :=
    ⟨_, _, _, by cbv, by cbv⟩
  obtain ⟨tree, trail', hprove, hvalid⟩ : ∃ tree trail',
      Resolver.prove clauses (Settings.limited {} (some 3)) 9
        (.list (Family.goals.map .literal)) start { source := ⟨.int 5⟩ } = (.proved tree, trail') ∧
      tree.isValid = true :=
    ⟨_, _, by cbv, by cbv⟩
  constructor
  · obtain ⟨l, hl, hstopped⟩ := (hguard 2 (by decide)).goal 9 goal depth c hfirst
    obtain rfl := Except.ok.inj (hgoal.symm.trans hl)
    obtain ⟨fault, hfault, hstopped⟩ := hstopped
    obtain rfl := hfault.eq_depthLimit (by decide) (by decide)
    exact ⟨_, rfl, hstopped⟩
  · refine ⟨tree, trail', hvalid, ?_⟩
    exact (hguard 3 (by decide)).same tree trail' hprove none (by simp) 9 le_rfl

open Roundabout Numeral in
/-- The unbounded search visits a goal below the limit one, but what stops the bounded one is
the number in that goal, which is too long to be written. -/
theorem guarded_circle_unwritten :
    ((Journaled.prove (clauses (.const (.int huge))) (Settings.limited {} none) 3
      (.literal (around (.const (.str "a")))) .empty).steps { source := ⟨.int 1⟩ }).any
        (Step.isDeep 1) = true ∧
    (Resolver.prove (clauses (.const (.int huge))) (Settings.limited {} (some 1)) 3
      (.literal (around (.const (.str "a")))) .empty { source := ⟨.int 1⟩ }).1 =
        .stopped (.numeral .tooLong) :=
  ⟨by decide +kernel, Outcome.isTooLong_iff.1 (by decide +kernel)⟩

end HornSearch
