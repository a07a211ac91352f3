/-
HornSearch/Proofs/Runs.lean

Environments that can be reached.  A user unifies operands, looks for a fact and asks for
proofs, each time under the environment that is started from or under one that was returned
before.  `Returns b c` is one such operation, and `Run b cs` is a run of them that begins with
`b` and returns the environments `cs`.

Every environment of a run is acyclic (`run_resolvable`): one operation keeps environments
regular tables and acyclic, and only adds bindings at the end (`Returns.keeps`), and so does a
run of any length.  An acyclic environment gives every term a full value, in which no bound
variable is left (`Bindings.Acyclic.resolvable`).
-/
import HornSearch.Proofs.MostGeneral
import HornSearch.Proofs.Queries
import Mathlib.Data.List.Permutation

namespace HornSearch

variable {b c : Bindings} {cs : List Bindings}

/-! ### Full values -/

/-- The environment gives everything a full value: following its bindings never comes back to
where it was, and ends at variables that are not bound. -/
structure Bindings.Resolvable (c : Bindings) : Prop where
  /-- Variables are bound to terms, each of them once. -/
  table : c.Meets .regular
  /-- No variable reaches itself through the terms that variables are bound to. -/
  acyclic : c.Acyclic
  /-- No variable is bound to itself. -/
  irreflexive : ∀ v, ¬ c.Binds v (.var v)
  /-- A variable is resolved. -/
  resolve : ∀ v, v.isRegular = true → ∃ t, c.valueOf v = .ok (.term t) ∧
    ∀ w ∈ t.occurrences, ¬ c.IsBound w
  /-- The environment can be applied to a term. -/
  term : ∀ t, t.meets .regular = true → ∃ u, c.substitute (.term t) = .ok (.term u) ∧
    ∀ w ∈ u.occurrences, ¬ c.IsBound w
  /-- The environment can be applied to a literal. -/
  literal : ∀ l, l.meets .regular = true → ∃ m, c.substitute (.literal l) = .ok (.literal m) ∧
    ∀ w ∈ m.occurrences, ¬ c.IsBound w

namespace Bindings.Acyclic

/-- In a full value no bound variable is left. -/
theorem unbound_of_mem_instantiate (hac : c.Acyclic) (hc : c.Meets .regular) {t : Term}
    (ht : t.meets .regular = true) {w : Variable}
    (hw : w ∈ (t.instantiate c.solution).occurrences) : ¬ c.IsBound w := by
  obtain ⟨v, hv, hwv⟩ := Term.mem_occurrences_instantiate.1 hw
  have hreg := Term.var_of_mem_occurrences (p := .regular) ht hv
  exact ((hac.mem_occurrences_solution hc hreg).1 hwv).2

/-- **An acyclic environment gives everything a full value.** -/
theorem resolvable (hac : c.Acyclic) (hc : c.Meets .regular) : c.Resolvable where
  table := hc
  acyclic := hac
  irreflexive v hv := hac v (.single ⟨.var v, hv, List.mem_singleton_self v⟩)
  resolve v hv := by
    have hvalue := hac.valueOf_eq hc hv
    exact ⟨_, hvalue, fun w hw => ((hac.mem_occurrences_solution hc hv).1 hw).2⟩
  term t ht := ⟨_, hac.substitute_term hc ht, fun w hw => hac.unbound_of_mem_instantiate hc ht hw⟩
  literal l hl := by
    refine ⟨_, hac.substitute_literal hc hl, fun w hw => ?_⟩
    rw [← Literal.occurrences_asTerm, Literal.asTerm_instantiate] at hw
    exact hac.unbound_of_mem_instantiate hc hl hw

end Bindings.Acyclic

/-! ### One operation -/

/-- An operation on regular syntax that is begun under `b` returns `c`. -/
inductive Returns (b c : Bindings) : Prop where
  | unify {x y : Item} :
      Matched .regular x y → HornSearch.unify x y b = .ok (some c) → Returns b c
  | sequences {x y : Item} {ts us : List Term} : x.IsSequenceOf ts → y.IsSequenceOf us →
      (∀ t ∈ ts, t.meets .regular = true) → (∀ u ∈ us, u.meets .regular = true) →
      unifyAsSequences x y (some b) = .ok (some c) → Returns b c
  | terms {t u : Term} : t.meets .regular = true → u.meets .regular = true →
      unifyAsTerms (.term t) (.term u) (some b) = .ok (some c) → Returns b c
  | literals {l m : Literal} : l.meets .regular = true → m.meets .regular = true →
      unifyAsLiterals (.literal l) (.literal m) (some b) = .ok (some c) → Returns b c
  | matchFact {kb : KnowledgeBase} {goal fact : Literal} :
      kb.Meets .regular → goal.meets .regular = true →
      kb.matchFact (.literal goal) b = .ok (some (fact, c)) → Returns b c
  | prove {kb : KnowledgeBase} {settings : Settings} {levels : Nat} {query : Item}
      {goals : List Literal} {trail trail' : Trail} {n : Int} {tree : ProofTree} :
      kb.Meets .regular → Resolver.goalsOf query = .ok (goals.map .literal) →
      (∀ g ∈ goals, g.meets .regular = true) → trail.source = ⟨.int n⟩ →
      Resolver.prove kb settings levels query b trail = (.proved tree, trail') →
      tree.bindings? = some c → Returns b c

/-- The environment `c` grew out of `b`, and is an acyclic table like it. -/
structure Grown (b c : Bindings) : Prop where
  isPrefix : b.entries <+: c.entries
  meets : c.Meets .regular
  acyclic : c.Acyclic

namespace Grown

theorem refl (hb : b.Meets .regular) (hac : b.Acyclic) : Grown b b :=
  ⟨List.prefix_rfl, hb, hac⟩

theorem trans {d : Bindings} (h : Grown b c) (h' : Grown c d) : Grown b d :=
  ⟨h.isPrefix.trans h'.isPrefix, h'.meets, h'.acyclic⟩

/-- Solving equations makes an environment grow. -/
theorem of_unified {t u : Term} (ht : t.meets .regular = true) (hu : u.meets .regular = true)
    (hb : b.Meets .regular) (hac : b.Acyclic) (h : Unified [(t, u)] b (some c)) :
    Grown b c := by
  have hposed : Posed .regular [(t, u)] b := .single (fun _ h => h) ht hu hb
  exact ⟨h.isPrefix rfl, h.meets rfl hposed, h.acyclic rfl hposed hac⟩

theorem of_unifyLists {ts us : List Term} (hts : ∀ t ∈ ts, t.meets .regular = true)
    (hus : ∀ u ∈ us, u.meets .regular = true) (hb : b.Meets .regular) (hac : b.Acyclic)
    (h : unifyLists (ts.map .term) (us.map .term) b = .ok (some c)) : Grown b c := by
  -- as the arguments of function terms with a common functor
  have hunified : Unified [(.app (.str "") ts, .app (.str "") us)] b (some c) :=
    unifyLists_unified (by simp) hts hus hb h
  exact of_unified (Term.meets_app_iff.2 ⟨rfl, hts⟩) (Term.meets_app_iff.2 ⟨rfl, hus⟩) hb hac
    hunified

theorem of_unifyLiterals {l m : Literal} (hl : l.meets .regular = true)
    (hm : m.meets .regular = true) (hb : b.Meets .regular) (hac : b.Acyclic)
    (h : unifyLiterals l m b = .ok (some c)) : Grown b c :=
  of_unified hl hm hb hac (unifyLiterals_unified hl hm hb h)

end Grown

/-- **One operation** makes an acyclic table grow to an acyclic table. -/
theorem Returns.keeps (h : Returns b c) (hb : b.Meets .regular) (hac : b.Acyclic) :
    Grown b c := by
  cases h with
  | unify hmatched h =>
    cases hmatched with
    | terms ht hu => exact .of_unified ht hu hb hac (unifyTerms_unified ht hu hb h)
    | literals hl hm => exact .of_unifyLiterals hl hm hb hac h
    | sequences hx hy hts hus =>
      rw [Matched.unify_sequences hx hy] at h
      exact .of_unifyLists hts hus hb hac h
  | @sequences x y ts us hx hy hts hus h =>
    have hlists : unifyAsSequences x y (some b) =
        unifyLists (ts.map .term) (us.map .term) b := by
      rcases hx with rfl | rfl <;> rcases hy with rfl | rfl <;> rfl
    rw [hlists] at h
    exact .of_unifyLists hts hus hb hac h
  | terms ht hu h => exact .of_unified ht hu hb hac (unifyTerms_unified ht hu hb h)
  | literals hl hm h => exact .of_unifyLiterals hl hm hb hac h
  | matchFact hkb hgoal h =>
    obtain ⟨hfact, hunify⟩ := KnowledgeBase.firstMatch_eq_some h
    exact .of_unifyLiterals hgoal (hkb.facts _ hfact).1 hb hac hunify
  | @prove kb settings levels query goals trail trail' n tree hkb hquery hgoals htrail h hc =>
    obtain ⟨nodes, k, m, -, -, hproved, -⟩ :=
      Resolver.proved_of_valid hkb hquery hgoals hb htrail h hc
    exact ⟨hproved.isPrefix, hproved.meets hb, hproved.acyclic hac⟩

/-! ### Runs -/

/-- A run of operations that begins with `b` and returns the environments `cs`, in order; each
operation is begun under `b` or under one of those returned before. -/
inductive Run (b : Bindings) : List Bindings → Prop where
  | nil : Run b []
  | step {cs : List Bindings} {c d : Bindings} :
      Run b cs → c ∈ b :: cs → Returns c d → Run b (cs ++ [d])

theorem Run.grown (h : Run b cs) (hb : b.Meets .regular) (hac : b.Acyclic) :
    ∀ c ∈ cs, Grown b c := by
  induction h with
  | nil => simp
  | @step cs c d _ hmem hreturns ih =>
    have hc : Grown b c := by
      rcases List.mem_cons.1 hmem with rfl | hmem
      · exact .refl hb hac
      · exact ih c hmem
    have hd : Grown b d := hc.trans (hreturns.keeps hc.meets hc.acyclic)
    exact List.forall_mem_append.2 ⟨ih, List.forall_mem_singleton.2 hd⟩

/-- **Reachable environments never become cyclic**: whatever is returned in a run that begins
with an acyclic environment has all its bindings, and gives everything a full value. -/
theorem run_resolvable (hb : b.Meets .regular) (hac : b.Acyclic) (h : Run b cs) :
    ∀ c ∈ cs, b.entries <+: c.entries ∧ c.Resolvable := by
  intro c hc
  have hgrown := h.grown hb hac c hc
  exact ⟨hgrown.isPrefix, hgrown.acyclic.resolvable hgrown.meets⟩

open Family in
/-- A pair with an ancestor in it is bound, then its other part to someone's child, and from
there a query is proved; the environments that are returned grow. -/
theorem run_family : ∃ c₁ c₂ c₃ : Bindings, Run start [c₁, c₂, c₃] ∧ c₁.size = 2 ∧ c₂.size = 4 ∧
    c₃.size = 11 ∧ ∀ c ∈ [c₁, c₂, c₃], start.entries <+: c.entries ∧ c.Resolvable := by
  let pair : Term := .app (.str "pair") [someone "X", someone "P"]
  let child : Literal := parent (someone "Q") (someone "P")
  obtain ⟨c₁, c₂, c₃, fact, tree, trail', hunify, hmatch, hprove, htree, h₁, h₂, h₃⟩ :
      ∃ c₁ c₂ c₃ fact tree trail', unify (.term (someone "W")) (.term pair) start =
          .ok (some c₁) ∧
        clauses.matchFact (.literal child) c₁ = .ok (some (fact, c₂)) ∧
        Resolver.prove clauses {} 9 (.list (Family.goals.map .literal)) c₂
          { source := ⟨.int 5⟩ } = (.proved tree, trail') ∧
        tree.bindings? = some c₃ ∧ c₁.size = 2 ∧ c₂.size = 4 ∧ c₃.size = 11 :=
    ⟨_, _, _, _, _, _, by cbv, by cbv, by cbv, by cbv, by cbv, by cbv, by cbv⟩
  have hrun₁ : Run start [c₁] :=
    .step .nil (by simp) (.unify (.terms (by decide) (by decide)) hunify)
  have hrun₂ : Run start [c₁, c₂] :=
    .step hrun₁ (by simp) (.matchFact clauses_meets (by decide) hmatch)
  have hrun₃ : Run start [c₁, c₂, c₃] :=
    .step hrun₂ (by simp) (.prove clauses_meets rfl (by decide) rfl hprove htree)
  exact ⟨c₁, c₂, c₃, hrun₃, h₁, h₂, h₃, run_resolvable start_meets start_acyclic hrun₃⟩

end HornSearch
