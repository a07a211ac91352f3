/-
HornSearch/Proofs/Levels.lean

Granting more nesting.  The search counts nesting down only so as to be a function; a
search that ends does so however much more is granted (`Resolver.prove_prolongs`).  So it
makes sense to say what a search ends in, without naming an amount: `Resolver.Ends` says
that some amount suffices, and there is at most one such end (`Resolver.Ends.unique`), which
all larger amounts lead to (`Resolver.Ends.eventually`).

`Search.Prolongs s' s` is the claim about two computations that carries this: wherever `s`
is not out of nesting, `s'` comes to the same outcome and leaves the same trail.
-/
import HornSearch.Search.Resolver
import Mathlib.Order.Lattice

namespace HornSearch

variable {α β : Type}

/-! ### Computations that go on longer -/

namespace Search

/-- Wherever `s` does not run out of nesting, `s'` does the same as `s`. -/
def Prolongs (s' s : Search α) : Prop :=
  ∀ trail, (s trail).1 = .stopped .endless ∨ s' trail = s trail

theorem Prolongs.refl (s : Search α) : s.Prolongs s := fun _ => .inr rfl

/-- Anything goes on longer than what is out of nesting at once. -/
theorem prolongs_endless (s : Search α) : s.Prolongs (stop .endless) := fun _ => .inl rfl

theorem Prolongs.bind {s s' : Search α} {next next' : α → Search β} (hs : s'.Prolongs s)
    (hnext : ∀ a, (next' a).Prolongs (next a)) : (s' >>= next').Prolongs (s >>= next) := by
  intro trail
  show (Search.bind s next trail).1 = _ ∨ Search.bind s' next' trail = Search.bind s next trail
  rcases hs trail with hendless | heq
  · left
    rcases e : s trail with ⟨a | - | fault, t⟩
    · rw [e] at hendless
      cases hendless
    · rw [e] at hendless
      cases hendless
    · rw [e] at hendless
      simp only [Search.bind, e]
      rw [Outcome.stopped.inj hendless]
  -- the first computations agree, so the second ones begin with the same
  · unfold Search.bind
    rw [heq]
    rcases s trail with ⟨a | - | fault, t⟩
    · exact hnext a t
    · exact .inr rfl
    · exact .inr rfl

theorem Prolongs.orElse {s s' other other' : Search α} (hs : s'.Prolongs s)
    (hother : other'.Prolongs other) :
    (Search.orElse s' other').Prolongs (Search.orElse s other) := by
  intro trail
  rcases hs trail with hendless | heq
  · left
    unfold Search.orElse
    rcases e : s trail with ⟨a | - | fault, t⟩
    · rw [e] at hendless
      cases hendless
    · rw [e] at hendless
      cases hendless
    · rw [e] at hendless
      exact hendless
  · unfold Search.orElse
    rw [heq]
    rcases s trail with ⟨a | - | fault, t⟩
    · exact .inr rfl
    · exact hother t
    · exact .inr rfl

end Search

/-! ### The search -/

namespace Resolver

variable {kb : KnowledgeBase} {settings : Settings} {levels levels' : Nat}

theorem solveAll_prolongs {solver solver' : GoalSolver}
    (h : ∀ goal b, (solver' goal b).Prolongs (solver goal b)) (goals : List Literal)
    (b : Bindings) : (solveAll solver' goals b).Prolongs (solveAll solver goals b) := by
  induction goals generalizing b with
  | nil => exact .refl _
  | cons goal goals ih =>
    refine (h goal b).bind fun r => ?_
    exact (ih r.1).bind fun _ => .refl _

theorem solveByRule_prolongs {solver solver' : GoalsSolver}
    (h : ∀ goals b, (solver' goals b).Prolongs (solver goals b)) (goal : Literal) (depth : Nat)
    (b : Bindings) (rule : Rule) :
    (solveByRule settings solver' goal depth b rule).Prolongs
      (solveByRule settings solver goal depth b rule) := by
  refine (Search.Prolongs.refl _).bind fun copy => ?_
  refine (Search.Prolongs.refl _).bind fun unified => ?_
  have hbody : ∀ c, (do
      let r ← solver' copy.body c
      return (r.1, ProofNode.byRule goal copy r.2 depth)).Prolongs (do
      let r ← solver copy.body c
      return (r.1, ProofNode.byRule goal copy r.2 depth)) :=
    fun c => (h copy.body c).bind fun _ => .refl _
  -- the attempt may be recorded in between
  cases unified with
  | none =>
    cases settings.trace with
    | false => exact .refl _
    | true => exact .refl _
  | some c =>
    cases settings.trace with
    | false => exact hbody c
    | true => exact (Search.Prolongs.refl _).bind fun _ => hbody c

theorem solveByRules_prolongs {solver solver' : GoalsSolver}
    (h : ∀ goals b, (solver' goals b).Prolongs (solver goals b)) (goal : Literal) (depth : Nat)
    (b : Bindings) (rules : List Rule) :
    (solveByRules settings solver' goal depth b rules).Prolongs
      (solveByRules settings solver goal depth b rules) := by
  induction rules with
  | nil => exact .refl _
  | cons rule rules ih =>
    rw [solveByRules, solveByRules]
    split
    · exact (solveByRule_prolongs h goal depth b rule).orElse ih
    · exact ih

theorem solve_prolongs (hle : levels ≤ levels') (depth : Nat) (goal : Literal) (b : Bindings) :
    (solve kb settings levels' depth goal b).Prolongs (solve kb settings levels depth goal b) := by
  induction levels generalizing levels' depth goal b with
  | zero =>
    -- both guard the depth first, and then the one with nothing granted is out of nesting
    cases levels' with
    | zero => exact .refl _
    | succ levels' => exact (Search.Prolongs.refl _).bind fun _ => Search.prolongs_endless _
  | succ levels ih =>
    obtain ⟨levels', rfl⟩ := Nat.exists_eq_add_one.2 (Nat.zero_lt_of_lt hle)
    have hbody := solveAll_prolongs fun goal b =>
      ih (Nat.le_of_succ_le_succ hle) (depth + 1) goal b
    refine (Search.Prolongs.refl _).bind fun _ => ?_
    refine (Search.Prolongs.refl _).bind fun _ => ?_
    refine (Search.Prolongs.refl _).bind fun found => ?_
    cases found with
    | none => exact solveByRules_prolongs hbody goal depth b kb.rules
    | some match? => exact .refl _

theorem solveGoals_prolongs (hle : levels ≤ levels') (goals : List Item) (b : Bindings) :
    (solveGoals kb settings levels' goals b).Prolongs (solveGoals kb settings levels goals b) := by
  induction goals generalizing b with
  | nil => exact .refl _
  | cons goal goals ih =>
    have hrest : ∀ r : Bindings × ProofNode, (do
        let rest ← solveGoals kb settings levels' goals r.1
        return (rest.1, r.2 :: rest.2)).Prolongs (do
        let rest ← solveGoals kb settings levels goals r.1
        return (rest.1, r.2 :: rest.2)) :=
      fun r => (ih r.1).bind fun _ => .refl _
    cases goal with
    | literal l => exact (solve_prolongs hle 0 l b).bind hrest
    | term => exact (Search.Prolongs.refl _).bind hrest
    | rule => exact (Search.Prolongs.refl _).bind hrest
    | list => exact (Search.Prolongs.refl _).bind hrest
    | tuple => exact (Search.Prolongs.refl _).bind hrest
    | raw => exact (Search.Prolongs.refl _).bind hrest

/-- **More nesting changes no end of a search**: neither what it comes to nor the trail that
it leaves. -/
theorem prove_prolongs (hle : levels ≤ levels') (query : Item) (b : Bindings) :
    (prove kb settings levels' query b).Prolongs (prove kb settings levels query b) := by
  refine (Search.Prolongs.refl _).bind fun goals => ?_
  refine (Search.Prolongs.refl _).bind fun serial => ?_
  refine (Search.Prolongs.refl _).bind fun _ => ?_
  refine Search.Prolongs.orElse ?_ (.refl _)
  exact (solveGoals_prolongs hle goals b).bind fun _ => .refl _

/-! ### Ends -/

variable {query : Item} {b : Bindings} {trail : Trail} {r r' : Outcome ProofTree × Trail}

/-- The search ends: some nesting suffices for it to come to this outcome and trail. -/
def Ends (kb : KnowledgeBase) (settings : Settings) (query : Item) (b : Bindings) (trail : Trail)
    (r : Outcome ProofTree × Trail) : Prop :=
  ∃ levels, prove kb settings levels query b trail = r ∧ r.1 ≠ .stopped .endless

/-- Any larger amount leads to the same end. -/
theorem prove_eq_of_le (h : prove kb settings levels query b trail = r)
    (hr : r.1 ≠ .stopped .endless) (hle : levels ≤ levels') :
    prove kb settings levels' query b trail = r := by
  rcases prove_prolongs hle query b trail with hendless | heq
  · rw [h] at hendless
    exact absurd hendless hr
  · rw [heq, h]

/-- A search that a fault stops has ended, if the fault is not that nesting has run out. -/
theorem exists_ends_of_stopped {fault : Fault}
    (h : (prove kb settings levels query b trail).1 = .stopped fault) (hfault : fault ≠ .endless) :
    ∃ r, Ends kb settings query b trail r ∧ r.1 = .stopped fault := by
  refine ⟨_, ⟨levels, rfl, ?_⟩, h⟩
  rw [h]
  exact fun hendless => hfault (Outcome.stopped.inj hendless)

theorem Ends.eventually (h : Ends kb settings query b trail r) :
    ∃ levels, ∀ levels', levels ≤ levels' → prove kb settings levels' query b trail = r := by
  obtain ⟨levels, hprove, hr⟩ := h
  exact ⟨levels, fun levels' hle => prove_eq_of_le hprove hr hle⟩

/-- **A search has one end.** -/
theorem Ends.unique (h : Ends kb settings query b trail r)
    (h' : Ends kb settings query b trail r') : r = r' := by
  obtain ⟨levels, hlevels⟩ := h.eventually
  obtain ⟨levels', hlevels'⟩ := h'.eventually
  rw [← hlevels (max levels levels') (le_max_left _ _),
    ← hlevels' (max levels levels') (le_max_right _ _)]

end Resolver

end HornSearch
