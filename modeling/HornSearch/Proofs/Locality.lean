/-
HornSearch/Proofs/Locality.lean

The search is local: what it binds is built from what it can reach.  A term shuns a set of
variables if no chain of bindings leads from it to one of them (`Bindings.Shuns`).  Solving
goals that shun a set spares it (`SolvedAll.spares`): none of its variables is bound, and
whatever shunned the set before shuns it afterwards.  A step for each way of solving an
equation and of solving a goal says so, and the copies of rules that are made on the way shun
the set because its variables are in use.

So a term whose variables are spared stands for the same before and after
(`Spares.instantiate_eq`).
-/
import HornSearch.Proofs.FirstMatch

namespace HornSearch

variable {S : List Variable} {b c d : Bindings} {t u : Term} {v w : Variable}

/-! ### Variables out of reach -/

/-- No variable of the set is reached from the term. -/
def Bindings.Shuns (b : Bindings) (S : List Variable) (t : Term) : Prop :=
  ∀ v ∈ t.occurrences, ∀ w, b.Reaches v w → w ∉ S

namespace Bindings.Shuns

theorem not_mem (h : b.Shuns S (.var v)) : v ∉ S := Bindings.AllReached.self h

/-- A variable that shuns the set is bound to a term that does. -/
theorem follow (h : b.Shuns S (.var v)) (ht : b.Binds v t) : b.Shuns S t :=
  Bindings.AllReached.follow h ht

theorem arg {f : Value} {ts : List Term} (h : b.Shuns S (.app f ts)) (ht : t ∈ ts) :
    b.Shuns S t :=
  Bindings.AllReached.arg h ht

theorem of_ground (ht : t.occurrences = []) : b.Shuns S t := by
  intro v hv
  rw [ht] at hv
  cases hv

end Bindings.Shuns

/-- To shun variables that are unbound is to have a full value without them. -/
theorem Bindings.Acyclic.shuns_iff (hac : b.Acyclic) (hb : b.Meets .regular)
    (ht : t.meets .regular = true) (hS : ∀ w ∈ S, ¬ b.IsBound w) :
    b.Shuns S t ↔ ∀ w ∈ (t.instantiate b.solution).occurrences, w ∉ S := by
  have hreg : ∀ v ∈ t.occurrences, v.isRegular = true :=
    fun v hv => Term.var_of_mem_occurrences (p := .regular) ht hv
  constructor
  · intro h w hw
    obtain ⟨v, hv, hvw⟩ := Term.mem_occurrences_instantiate.1 hw
    exact h v hv w ((hac.mem_occurrences_solution hb (hreg v hv)).1 hvw).1
  · intro h v hv w hvw hw
    have hleft : w ∈ (b.solution v).occurrences :=
      (hac.mem_occurrences_solution hb (hreg v hv)).2 ⟨hvw, hS w hw⟩
    exact h w (Term.mem_occurrences_instantiate.2 ⟨v, hv, hleft⟩) hw

/-- The copy of a rule shuns all variables that are in use when it is made. -/
theorem FreshCopy.shuns {rule copy : Rule} {ls : List Literal} {l : Literal}
    (h : FreshCopy rule copy ls b) (hS : ∀ v ∈ S, InUse ls b v) (hl : l ∈ copy.literals) :
    b.Shuns S l.asTerm := by
  intro v hv w hvw hw
  have hcopy : v ∈ copy.occurrences := Rule.mem_occurrences_iff.2 ⟨l, hl, hv⟩
  -- a variable of the copy is unbound, so that it reaches itself only
  rcases Relation.ReflTransGen.cases_head hvw with rfl | ⟨x, ⟨t, ht, -⟩, -⟩
  · exact h.not_inUse (hS v hw) hcopy
  · exact h.bindings v hcopy ⟨v, t, ht, .inl rfl⟩

/-! ### Sets that are spared -/

/-- The environment `c` grew out of `b` without touching the set: none of its variables is
bound, and what shunned it still does. -/
structure Spares (S : List Variable) (b c : Bindings) : Prop where
  isPrefix : b.entries <+: c.entries
  unbound : ∀ v ∈ S, ¬ b.IsBound v → ¬ c.IsBound v
  shuns : ∀ t, b.Shuns S t → c.Shuns S t

namespace Spares

theorem refl (S : List Variable) (b : Bindings) : Spares S b b :=
  ⟨List.prefix_rfl, fun _ _ h => h, fun _ h => h⟩

theorem trans (h : Spares S b c) (h' : Spares S c d) : Spares S b d :=
  ⟨h.isPrefix.trans h'.isPrefix, fun v hv hb => h'.unbound v hv (h.unbound v hv hb),
    fun t ht => h'.shuns t (h.shuns t ht)⟩

/-- **One binding** between a variable and a term that both shun the set spares it. -/
theorem bind (hv : b.Shuns S (.var v)) (ht : b.Shuns S t) : Spares S b (b.bind v t) where
  isPrefix := List.prefix_append _ _
  unbound := by
    rintro w hw hb ⟨u, hu⟩
    rcases Bindings.binds_bind_iff.1 hu with hu | ⟨rfl, -⟩
    · exact hb ⟨u, hu⟩
    · exact hv.not_mem hw
  shuns _ hu := Bindings.AllReached.bind hu ht

end Spares

/-- **Solving equations** whose sides shun a set spares it. -/
theorem Unified.spares {es : List Equation} {r : Option Bindings} (h : Unified es b r)
    (hr : r = some c) (hes : ∀ e ∈ es, b.Shuns S e.1 ∧ b.Shuns S e.2) : Spares S b c := by
  induction h with
  | done =>
    obtain rfl := Option.some.inj hr
    exact .refl S _
  | symbol _ _ ih | same _ ih => exact ih hr (List.forall_mem_cons.1 hes).2
  | turn _ _ ih =>
    obtain ⟨he, hes⟩ := List.forall_mem_cons.1 hes
    exact ih hr (List.forall_mem_cons.2 ⟨he.symm, hes⟩)
  | follow _ hu _ ih =>
    obtain ⟨⟨hv, ht⟩, hes⟩ := List.forall_mem_cons.1 hes
    exact ih hr (List.forall_mem_cons.2 ⟨⟨ht, hv.follow hu⟩, hes⟩)
  | followRight _ _ hu _ ih =>
    obtain ⟨⟨hv, hw⟩, hes⟩ := List.forall_mem_cons.1 hes
    exact ih hr (List.forall_mem_cons.2 ⟨⟨hv, hw.follow hu⟩, hes⟩)
  | bind _ _ _ _ _ ih =>
    obtain ⟨⟨hv, ht⟩, hes⟩ := List.forall_mem_cons.1 hes
    have hbind := Spares.bind hv ht
    exact hbind.trans (ih hr fun e he => (hes e he).imp (hbind.shuns _) (hbind.shuns _))
  | @decompose f g ts us es b r _ _ _ ih =>
    obtain ⟨⟨hts, hus⟩, hes⟩ := List.forall_mem_cons.1 hes
    refine ih hr (List.forall_mem_append.2 ⟨?_, hes⟩)
    rintro ⟨t, u⟩ htu
    exact ⟨hts.arg (List.of_mem_zip htu).1, hus.arg (List.of_mem_zip htu).2⟩
  | occurs | clash => cases hr

/-! ### Full values that stay -/

/-- The full values of an environment go on to those of one that grew out of it. -/
theorem Bindings.Acyclic.instantiate_of_isPrefix (hac : b.Acyclic) (hb : b.Meets .regular)
    (hacc : c.Acyclic) (hc : c.Meets .regular) (h : b.entries <+: c.entries)
    (ht : t.meets .regular = true) :
    (t.instantiate b.solution).instantiate c.solution = t.instantiate c.solution := by
  rw [Term.instantiate_instantiate]
  exact Term.instantiate_congr fun v hv =>
    hac.solution_instantiate hb hacc hc (fun _ _ ht => h.subset ht)
      (Term.var_of_mem_occurrences (p := .regular) ht hv)

/-- **A term whose variables are spared** stands for the same as before. -/
theorem Spares.instantiate_eq (h : Spares S b c) (hac : b.Acyclic) (hb : b.Meets .regular)
    (hacc : c.Acyclic) (hc : c.Meets .regular) (ht : t.meets .regular = true)
    (hS : ∀ w ∈ (t.instantiate b.solution).occurrences, w ∈ S) :
    t.instantiate c.solution = t.instantiate b.solution := by
  have hfull := (hac.solution_meets_regular hb).regular_instantiate ht
  rw [← hac.instantiate_of_isPrefix hb hacc hc h.isPrefix ht]
  refine (Term.instantiate_congr fun w hw => ?_).trans (Term.instantiate_id _)
  -- what is left in a full value is unbound, and stays so
  obtain ⟨v, hv, hvw⟩ := Term.mem_occurrences_instantiate.1 hw
  have hreg := Term.var_of_mem_occurrences (p := .regular) ht hv
  have hfree := ((hac.mem_occurrences_solution hb hreg).1 hvw).2
  exact hacc.solution_of_unbound hc (Term.var_of_mem_occurrences (p := .regular) hfull hw)
    (h.unbound w (hS w hw) hfree)

/-! ### Goals -/

section Goals

variable {kb : KnowledgeBase} {pending goals : List Literal} {goal : Literal}

/-- Unifying literals that shun a set spares it. -/
theorem Joined.spares {l m : Literal} (h : Joined l m b c) (hl : b.Shuns S l.asTerm)
    (hm : b.Shuns S m.asTerm) : Spares S b c :=
  h.unified.spares rfl (List.forall_mem_singleton.2 ⟨hl, hm⟩)

theorem InUse.mono {ls : List Literal} (h : InUse ls b v) (hbc : b.entries <+: c.entries) :
    InUse ls c v :=
  h.imp_right fun hb => hb.mono hbc

mutual

/-- Solving a goal that shuns a set spares it, if the variables of the set are in use besides
the goal. -/
theorem Solved.spares (hkb : kb.Meets .regular) {pending : List Literal} {goal : Literal}
    {b c : Bindings} : Solved kb pending goal b c → goal.meets .regular = true →
      b.Meets .regular → (∀ v ∈ S, InUse pending b v) → b.Shuns S goal.asTerm →
      Spares S b c ∧ c.Meets .regular
  | @Solved.fact _ _ before after _ fact _ _ hfacts _ hunify, hgoal, hb, _, hshuns => by
    have hmem : fact ∈ kb.facts := by simp [hfacts]
    obtain ⟨hfact, hground⟩ := hkb.facts fact hmem
    have hjoined : Joined goal fact b c := ⟨hgoal, hfact, hb, hunify⟩
    exact ⟨hjoined.spares hshuns (.of_ground (Literal.isGround_iff.1 hground)), hjoined.meets⟩
  | @Solved.rule _ _ before after _ rule copy _ d _ _ hrules _ _ hcopy hunify hbody, hgoal, hb,
    hS, hshuns => by
    have hmem : rule ∈ kb.rules := by simp [hrules]
    have hregular := hcopy.meets (fun _ h => h) (hkb.rules rule hmem)
    obtain ⟨hhead, hbodies⟩ := Rule.meets_iff.1 hregular
    have hinUse : ∀ v ∈ S, InUse (goal :: pending) b v := by
      intro v hv
      exact (hS v hv).imp_left fun ⟨l, hl, hvl⟩ => ⟨l, List.mem_cons_of_mem _ hl, hvl⟩
    have hjoined : Joined goal copy.head b d := ⟨hgoal, hhead, hb, hunify⟩
    have hspares : Spares S b d :=
      hjoined.spares hshuns (hcopy.shuns hinUse List.mem_cons_self)
    have hbodyShuns : ∀ l ∈ copy.body, d.Shuns S l.asTerm := fun l hl =>
      hspares.shuns _ (hcopy.shuns hinUse (List.mem_cons_of_mem _ hl))
    obtain ⟨hspares', hc⟩ := hbody.spares hkb hbodies hjoined.meets
      (fun v hv => (hS v hv).mono hspares.isPrefix) hbodyShuns
    exact ⟨hspares.trans hspares', hc⟩

/-- **Solving goals** that shun a set spares it, if the variables of the set are in use besides
the goals. -/
theorem SolvedAll.spares (hkb : kb.Meets .regular) {pending goals : List Literal}
    {b c : Bindings} : SolvedAll kb pending goals b c → (∀ g ∈ goals, g.meets .regular = true) →
      b.Meets .regular → (∀ v ∈ S, InUse pending b v) → (∀ g ∈ goals, b.Shuns S g.asTerm) →
      Spares S b c ∧ c.Meets .regular
  | .nil, _, hb, _, _ => ⟨.refl S _, hb⟩
  | @SolvedAll.cons _ _ goals _ _ d _ hsolved hrest, hgoals, hb, hS, hshuns => by
    obtain ⟨hgoal, hgoals⟩ := List.forall_mem_cons.1 hgoals
    obtain ⟨hgoalShuns, hshuns⟩ := List.forall_mem_cons.1 hshuns
    have hinUse : ∀ v ∈ S, InUse (goals ++ pending) b v := by
      intro v hv
      exact (hS v hv).imp_left fun ⟨l, hl, hvl⟩ => ⟨l, List.mem_append_right _ hl, hvl⟩
    obtain ⟨hspares, hd⟩ := hsolved.spares hkb hgoal hb hinUse hgoalShuns
    obtain ⟨hspares', hc⟩ := hrest.spares hkb hgoals hd
      (fun v hv => (hS v hv).mono hspares.isPrefix) fun g hg => hspares.shuns _ (hshuns g hg)
    exact ⟨hspares.trans hspares', hc⟩

end

/-- The variables that are left in some literals once the bindings are put in. -/
noncomputable def Bindings.remaining (b : Bindings) (ls : List Literal) : List Variable :=
  ls.flatMap fun l => (l.instantiate b.solution).occurrences

theorem Bindings.mem_remaining {ls : List Literal} :
    v ∈ b.remaining ls ↔ ∃ l ∈ ls, v ∈ (l.instantiate b.solution).occurrences :=
  List.mem_flatMap

/-- What is left in literals is in use, and unbound. -/
theorem Bindings.Acyclic.inUse_of_remaining (hac : b.Acyclic) (hb : b.Meets .regular)
    {ls : List Literal} (hls : ∀ l ∈ ls, l.meets .regular = true) (hv : v ∈ b.remaining ls) :
    InUse ls b v ∧ ¬ b.IsBound v := by
  obtain ⟨l, hl, hvl⟩ := Bindings.mem_remaining.1 hv
  obtain ⟨hmem, hfree⟩ := hac.mem_occurrences_literal hb (hls l hl) hvl
  exact ⟨hmem.imp_left fun h => ⟨l, hl, h⟩, hfree⟩

/-- **Literals that share nothing with the goals** stand for the same once the goals are
solved, and still share nothing with them. -/
theorem SolvedAll.keeps (hkb : kb.Meets .regular) (h : SolvedAll kb pending goals b c)
    (hb : b.Meets .regular) (hac : b.Acyclic) (hacc : c.Acyclic) {ls : List Literal}
    (hgoals : ∀ g ∈ goals, g.meets .regular = true) (hls : ∀ l ∈ ls, l.meets .regular = true)
    (hinUse : ∀ v ∈ b.remaining ls, InUse pending b v)
    (hdisjoint : (b.remaining goals).Disjoint (b.remaining ls)) :
    (∀ l ∈ ls, l.instantiate c.solution = l.instantiate b.solution) ∧
      (c.remaining goals).Disjoint (c.remaining ls) := by
  have hfree : ∀ v ∈ b.remaining ls, ¬ b.IsBound v :=
    fun v hv => (hac.inUse_of_remaining hb hls hv).2
  have hshuns : ∀ g ∈ goals, b.Shuns (b.remaining ls) g.asTerm := by
    intro g hg
    rw [hac.shuns_iff hb (hgoals g hg) hfree]
    intro w hw hwl
    rw [← Literal.asTerm_instantiate, Literal.occurrences_asTerm] at hw
    exact hdisjoint (Bindings.mem_remaining.2 ⟨g, hg, hw⟩) hwl
  obtain ⟨hspares, hc⟩ := h.spares hkb hgoals hb hinUse hshuns
  have heq : ∀ l ∈ ls, l.instantiate c.solution = l.instantiate b.solution := by
    intro l hl
    apply Literal.asTerm_injective
    rw [Literal.asTerm_instantiate, Literal.asTerm_instantiate]
    refine hspares.instantiate_eq hac hb hacc hc (hls l hl) fun w hw => ?_
    rw [← Literal.asTerm_instantiate, Literal.occurrences_asTerm] at hw
    exact Bindings.mem_remaining.2 ⟨l, hl, hw⟩
  refine ⟨heq, ?_⟩
  -- the goals shun what was left in the other literals, which is what is left in them now
  intro v hvg hvl
  obtain ⟨g, hg, hvg⟩ := Bindings.mem_remaining.1 hvg
  obtain ⟨l, hl, hvl⟩ := Bindings.mem_remaining.1 hvl
  rw [heq l hl] at hvl
  have hfree' : ∀ v ∈ b.remaining ls, ¬ c.IsBound v :=
    fun v hv => hspares.unbound v hv (hfree v hv)
  have hshuns' := (hacc.shuns_iff hc (hgoals g hg) hfree').1 (hspares.shuns _ (hshuns g hg))
  rw [← Literal.asTerm_instantiate, Literal.occurrences_asTerm] at hshuns'
  exact hshuns' v hvg (Bindings.mem_remaining.2 ⟨l, hl, hvl⟩)

end Goals

end HornSearch
