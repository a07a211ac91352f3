/-
HornSearch/Proofs/FactQueries.lean

Facts are matched from one side.  A fact is ground, so unifying a goal with it comes to finding
terms for the variables that are left in the goal once the bindings are put in, such that the
goal becomes the fact; the first fact for which there are any is the one that is found
(`matchFact_finds`).

Of every equation that comes up on the way one side is a part of the fact, though not always the
same one, since following a binding makes the sides change places.  So what is added binds
variables to parts of the fact (`Unified.binds_parts`), and nothing else: the goal becomes
ground, so that each variable that was left is bound.

Where no variable is left there is nothing to bind, and the sides are compared piece by piece
(`Unified.of_ground`).  That comparison is stricter than equality, by which a NaN is like itself
among the arguments of a literal: constants are compared as constants, and a NaN is none of
them (`Term.coincides`).
-/
import HornSearch.Proofs.FirstMatch
import HornSearch.Proofs.Growth

namespace HornSearch

variable {es ds : List Equation} {b c θ : Bindings} {r : Option Bindings} {σ : Assignment}
variable {v : Variable} {t u : Term} {goal fact l : Literal} {facts : List Literal}

/-! ### Parts of terms -/

/-- The term is the other one, or a part of one of its arguments. -/
inductive Term.IsPartOf (t : Term) : Term → Prop where
  | self : IsPartOf t t
  | arg {f : Value} {us : List Term} {u : Term} :
      u ∈ us → IsPartOf t u → IsPartOf t (.app f us)

theorem Term.IsPartOf.of_arg {f : Value} {ts : List Term} (ht : t ∈ ts)
    (h : (Term.app f ts).IsPartOf u) : t.IsPartOf u := by
  induction h with
  | self => exact .arg ht .self
  | arg hu _ ih => exact .arg hu ih

/-- The term is a part of one of the arguments. -/
def Literal.HasPart (l : Literal) (t : Term) : Prop := ∃ u ∈ l.args, t.IsPartOf u

/-- Where one side of each equation is such a term, and arguments of such terms are such terms
again, variables are bound to nothing else. -/
theorem Unified.binds_parts (h : Unified es b r) (hr : r = some c) {P : Term → Prop}
    (hvar : ∀ v, ¬ P (.var v)) (harg : ∀ f ts, P (.app f ts) → ∀ t ∈ ts, P t)
    (hes : ∀ e ∈ es, P e.1 ∨ P e.2) : ∀ v t, c.Binds v t → b.Binds v t ∨ P t := by
  induction h with
  | done =>
    obtain rfl := Option.some.inj hr
    exact fun v t ht => .inl ht
  | symbol _ _ ih | same _ ih => exact ih hr (List.forall_mem_cons.1 hes).2
  | turn _ _ ih =>
    obtain ⟨he, hes⟩ := List.forall_mem_cons.1 hes
    exact ih hr (List.forall_mem_cons.2 ⟨he.symm, hes⟩)
  -- it is not the variable that is such a term, so it is the other side
  | @follow v t u es b r _ _ _ ih =>
    obtain ⟨he, hes⟩ := List.forall_mem_cons.1 hes
    exact ih hr (List.forall_mem_cons.2 ⟨.inl (he.resolve_left (hvar v)), hes⟩)
  | @followRight v w u es b r _ _ _ _ ih =>
    obtain ⟨he, -⟩ := List.forall_mem_cons.1 hes
    exact absurd (he.resolve_left (hvar v)) (hvar w)
  | @bind v t es b r _ _ _ _ _ ih =>
    obtain ⟨he, hes⟩ := List.forall_mem_cons.1 hes
    intro w u hw
    rcases ih hr hes w u hw with hw | hu
    · rcases Bindings.binds_bind_iff.1 hw with hw | ⟨-, rfl⟩
      · exact .inl hw
      · exact .inr (he.resolve_left (hvar v))
    · exact .inr hu
  | @decompose f g ts us es b r _ _ _ ih =>
    obtain ⟨he, hes⟩ := List.forall_mem_cons.1 hes
    refine ih hr (List.forall_mem_append.2 ⟨?_, hes⟩)
    rintro ⟨t, u⟩ htu
    exact he.imp (fun h => harg f ts h t (List.of_mem_zip htu).1)
      fun h => harg g us h u (List.of_mem_zip htu).2
  | occurs | clash => cases hr

/-! ### A goal and a fact -/

/-- Some assignment makes the literal the other one. -/
def Literal.HasInstance (l m : Literal) : Prop :=
  ∃ σ : Assignment, σ.Meets .regular ∧ (l.instantiate σ == m) = true

/-- What is wanted of bindings `θ` that make a goal a fact, where `l` is the goal under the
bindings `b` that there were. -/
structure MatchesFact (goal l fact : Literal) (b θ : Bindings) : Prop where
  /-- The variables that were left in the goal are bound after the old ones, each of them once,
  and to ground parts of the fact. -/
  added : ∃ new : List (Variable × Term),
    θ.entries = b.entries ++ (Bindings.ofPairs new).entries ∧ (new.map Prod.fst).Nodup ∧
      (∀ v, v ∈ new.map Prod.fst ↔ v ∈ l.occurrences) ∧
      ∀ e ∈ new, e.2.isGround = true ∧ fact.HasPart e.2
  /-- Applying the new bindings gives the fact. -/
  equal : ∃ g, θ.substitute (.literal goal) = .ok (.literal g) ∧ (g == fact) = true

namespace Joined

/-- The goal under the new bindings is the fact, also if the old ones are applied before. -/
theorem instance_eq (h : Joined goal fact b θ) (hac : b.Acyclic) (hground : fact.isGround = true) :
    (goal.instantiate θ.solution == fact) = true ∧
      (goal.instantiate b.solution).instantiate θ.solution = goal.instantiate θ.solution := by
  have hacθ := h.acyclic hac
  obtain ⟨-, heq⟩ := h.sound (hacθ.solution_meets_regular h.meets) (hacθ.solves_solution h.meets)
  rw [Literal.instantiate_of_isGround hground] at heq
  refine ⟨heq, Literal.asTerm_injective ?_⟩
  simp only [Literal.asTerm_instantiate]
  exact hac.instantiate_of_isPrefix h.env hacθ h.meets h.isPrefix h.left

theorem hasInstance (h : Joined goal fact b θ) (hac : b.Acyclic)
    (hground : fact.isGround = true) : (goal.instantiate b.solution).HasInstance fact := by
  obtain ⟨heq, hsame⟩ := h.instance_eq hac hground
  exact ⟨θ.solution, (h.acyclic hac).solution_meets_regular h.meets, by rwa [hsame]⟩

/-- What unifying with a fact adds binds a variable that is left in the goal to a ground part of
the fact. -/
theorem added_part (h : Joined goal fact b θ) (hac : b.Acyclic) (hground : fact.isGround = true)
    (hv : θ.Binds v t) (hfree : ¬ b.IsBound v) :
    v ∈ (goal.instantiate b.solution).occurrences ∧ t.isGround = true ∧ fact.HasPart t := by
  have hu := h.unified
  constructor
  · obtain ⟨⟨u, hu | hu, hreach⟩, -⟩ :=
      Unified.reached (x := .literal goal) (y := .literal fact) hu hv hfree
    · have hreg := Literal.var_of_mem_occurrences (p := .regular) h.left hu
      exact Literal.mem_occurrences_instantiate.2
        ⟨u, hu, (hac.mem_occurrences_solution h.env hreg).2 ⟨hreach, hfree⟩⟩
    · change u ∈ fact.occurrences at hu
      rw [Literal.isGround_iff.1 hground] at hu
      cases hu
  · have hfact : ∀ u ∈ fact.args, u.isGround = true := Term.isGroundList_iff.1 hground
    cases hu with
    | decompose _ _ hargs =>
      rw [List.append_nil] at hargs
      refine (hargs.binds_parts rfl (P := fun t => t.isGround = true ∧ fact.HasPart t) ?_ ?_ ?_ v t
        hv).resolve_left fun ht => hfree ⟨t, ht⟩
      · rintro v ⟨hv, -⟩
        cases hv
      · rintro f ts ⟨hts, u, hu, hpart⟩ t ht
        exact ⟨Term.isGroundList_iff.1 hts t ht, u, hu, hpart.of_arg ht⟩
      · rintro ⟨t, u⟩ htu
        have hu := (List.of_mem_zip htu).2
        exact .inr ⟨hfact u hu, u, hu, .self⟩

/-- Every variable that is left in the goal is bound by unifying with a fact, since the goal
becomes ground. -/
theorem isBound_of_left (h : Joined goal fact b θ) (hac : b.Acyclic)
    (hground : fact.isGround = true) (hv : v ∈ (goal.instantiate b.solution).occurrences) :
    ¬ b.IsBound v ∧ θ.IsBound v := by
  refine ⟨(hac.mem_occurrences_literal h.env h.left hv).2, ?_⟩
  by_contra hfree
  have hacθ := h.acyclic hac
  have hσ := hacθ.solution_meets_regular h.meets
  have hl := (hac.solution_meets_regular h.env).literal h.left
  obtain ⟨heq, hsame⟩ := h.instance_eq hac hground
  have hclosed := Literal.isGround_of_beq (hσ.literal h.left) h.right heq hground
  have hvar : θ.solution v = .var v := by
    apply hacθ.solution_of_unbound h.meets _ hfree
    exact Literal.var_of_mem_occurrences (p := .regular) hl hv
  have hmem : v ∈ (goal.instantiate θ.solution).occurrences := by
    rw [← hsame]
    exact Literal.mem_occurrences_instantiate.2 ⟨v, hv, by simp [hvar, Term.occurrences]⟩
  rw [Literal.isGround_iff.1 hclosed] at hmem
  cases hmem

/-- **Unifying with a fact** binds the variables that are left in the goal, and no others. -/
theorem matchesFact (h : Joined goal fact b θ) (hac : b.Acyclic) (hground : fact.isGround = true) :
    MatchesFact goal (goal.instantiate b.solution) fact b θ := by
  refine ⟨?_, _, (h.acyclic hac).substitute_literal h.meets h.left, (h.instance_eq hac hground).1⟩
  obtain ⟨new, hentries, hnodup, hnew⟩ := h.meets.exists_added h.isPrefix
  refine ⟨new, hentries, hnodup, fun v => ⟨fun hv => ?_, fun hv => ?_⟩, ?_⟩
  · obtain ⟨⟨v, t⟩, he, rfl⟩ := List.mem_map.1 hv
    obtain ⟨ht, hfree⟩ := (hnew v t).1 he
    exact (h.added_part hac hground ht hfree).1
  · obtain ⟨hfree, t, ht⟩ := h.isBound_of_left hac hground hv
    exact List.mem_map_of_mem (f := Prod.fst) ((hnew v t).2 ⟨ht, hfree⟩)
  · rintro ⟨v, t⟩ he
    obtain ⟨ht, hfree⟩ := (hnew v t).1 he
    exact (h.added_part hac hground ht hfree).2

end Joined

/-- **A goal that has a fact for an instance** unifies with it, where no constant is a NaN: the
full values of the goal, instantiated, solve the bindings and make the goal the fact. -/
theorem Literal.HasInstance.unifies (h : (goal.instantiate b.solution).HasInstance fact)
    (hgoal : goal.meets .definite = true) (hfact : fact.meets .definite = true)
    (hground : fact.isGround = true) (hb : b.Meets .definite) (hac : b.Acyclic)
    (hr : unifyLiterals goal fact b = .ok r) : ∃ θ, r = some θ := by
  obtain ⟨σ, hσ, heq⟩ := h
  have hfull : Assignment.Meets .regular fun v => (b.solution v).instantiate σ :=
    fun v hv => hσ.regular_instantiate (hac.regular_solution hb.regular hv)
  have hsolves : Solves (fun v => (b.solution v).instantiate σ) b := by
    intro v t ht
    show Term.Alike ((b.solution v).instantiate σ) _
    rw [hac.solution_of_binds hb.regular ht, Term.instantiate_instantiate]
    exact Term.alike_refl (hfull.regular_instantiate (hb.regular.meets ht))
  have hequal : Equalizes (fun v => (b.solution v).instantiate σ) [(goal.asTerm, fact.asTerm)] := by
    refine equalizes_cons.2 ⟨?_, by simp [Equalizes]⟩
    rw [Literal.instantiate_instantiate] at heq
    rw [Term.instantiate_of_isGround (t := fact.asTerm) hground, ← Literal.asTerm_instantiate]
    exact Literal.beq_iff_alike.1 heq
  obtain ⟨θ, rfl, -⟩ := (unifyLiterals_unified hgoal hfact hb hr).complete
    (.single (fun _ h => h) hgoal hfact hb) hac hfull hsolves hequal
  exact ⟨θ, rfl⟩

/-! ### Goals without variables -/

mutual

/-- Whether two terms are the same piece by piece, constants being compared as constants: a NaN
is not the same as any. -/
def Term.coincides : Term → Term → Bool
  | .var v, .var w => v == w
  | .const a, .const c => a.sameSymbol c
  | .app f ts, .app g us => f.equals g && Term.coincidesList ts us
  | _, _ => false

/-- Whether two lists hold terms that are the same piece by piece. -/
def Term.coincidesList : List Term → List Term → Bool
  | [], [] => true
  | t :: ts, u :: us => t.coincides u && Term.coincidesList ts us
  | _, _ => false

end

/-- Whether two literals have the same predicate, and arguments that are the same piece by
piece. -/
def Literal.coincides (l m : Literal) : Bool := l.asTerm.coincides m.asTerm

namespace Term

theorem coincidesList_iff {ts us : List Term} :
    coincidesList ts us = true ↔ List.Forall₂ (fun t u => t.coincides u = true) ts us := by
  induction ts generalizing us with
  | nil => cases us <;> simp [coincidesList]
  | cons t ts ih => cases us <;> simp [coincidesList, ih]

theorem coincides_app_iff {f g : Value} {ts us : List Term} :
    (app f ts).coincides (app g us) = true ↔
      f.equals g = true ∧ List.Forall₂ (fun t u => t.coincides u = true) ts us := by
  simp [coincides, coincidesList_iff]

theorem coincides_symm (ht : t.meets .regular = true) (hu : u.meets .regular = true)
    (h : t.coincides u = true) : u.coincides t = true := by
  induction t using induct generalizing u with
  | var v =>
    cases u with
    | var w =>
      obtain rfl := (Variable.beq_iff_eq_of_isRegular ht hu).1 h
      exact h
    | const c => simp [coincides] at h
    | app g us => simp [coincides] at h
  | const a =>
    cases u with
    | var w => simp [coincides] at h
    | const c => exact Value.sameSymbol_symm ht hu h
    | app g us => simp [coincides] at h
  | app f ts ih =>
    cases u with
    | var w => simp [coincides] at h
    | const c => simp [coincides] at h
    | app g us =>
      obtain ⟨hfg, hargs⟩ := coincides_app_iff.1 h
      rw [meets_app_iff] at ht hu
      obtain rfl := label_eq_of_alike ht.1 (Value.alike_iff.2 (.inr hfg))
      refine coincides_app_iff.2 ⟨hfg, (forall₂_imp_of_mem hargs ?_).flip⟩
      exact fun t h u h' => ih t h (ht.2 t h) (hu.2 u h')

/-- What coincides with something has no NaN for a constant. -/
theorem definite_of_coincides (hu : u.meets .regular = true) (h : t.coincides u = true) :
    u.meets .definite = true := by
  induction u using induct generalizing t with
  | var w => exact hu
  | const c =>
    cases t with
    | const a =>
      have hn : c.isNaN = false := by
        by_contra hn
        have hsame := Value.isSameNaN_self (Bool.not_eq_false _ ▸ hn)
        exact Value.not_equals_of_isSameNaN_right hsame (Bool.and_eq_true_iff.1 h).2
      exact Bool.and_eq_true_iff.2 ⟨hu, by rw [hn]; rfl⟩
    | var v => simp [coincides] at h
    | app f ts => simp [coincides] at h
  | app g us ih =>
    cases t with
    | app f ts =>
      obtain ⟨-, hargs⟩ := coincides_app_iff.1 h
      rw [meets_app_iff] at hu ⊢
      have hall : List.Forall₂ (fun u t => u.meets .definite = true ∧ t.coincides u = true) us ts :=
        forall₂_imp_of_mem hargs.flip fun u hmem t _ htu => ⟨ih u hmem (hu.2 u hmem) htu, htu⟩
      exact ⟨hu.1, ((List.forall₂_and_left _ _).1 hall).1⟩
    | var v => simp [coincides] at h
    | const a => simp [coincides] at h

end Term

/-- Both sides of every equation coincide once the assignment is put in. -/
def Coincide (σ : Assignment) (es : List Equation) : Prop :=
  ∀ e ∈ es, (e.1.instantiate σ).coincides (e.2.instantiate σ) = true

theorem coincide_cons : Coincide σ ((t, u) :: es) ↔
    (t.instantiate σ).coincides (u.instantiate σ) = true ∧ Coincide σ es :=
  List.forall_mem_cons

theorem coincide_append : Coincide σ (es ++ ds) ↔ Coincide σ es ∧ Coincide σ ds :=
  List.forall_mem_append

theorem coincide_zip {ts us : List Term} (hl : ts.length = us.length) :
    Coincide σ (ts.zip us) ↔ List.Forall₂ (fun t u => t.coincides u = true)
      (ts.map (Term.instantiate σ)) (us.map (Term.instantiate σ)) := by
  rw [List.forall₂_map_left_iff, List.forall₂_map_right_iff, List.forall₂_iff_zip]
  constructor
  · intro h
    exact ⟨hl, fun {t u} htu => h (t, u) htu⟩
  · rintro ⟨-, h⟩ ⟨t, u⟩ htu
    exact h htu

theorem coincide_symbol {a c : Value} (h : a.sameSymbol c = true) :
    Coincide σ ((.const a, .const c) :: es) ↔ Coincide σ es := by
  simp [coincide_cons, Term.coincides, h]

theorem coincide_decompose {f g : Value} {ts us : List Term} (hfg : f.equals g = true)
    (hl : ts.length = us.length) :
    Coincide σ ((.app f ts, .app g us) :: es) ↔ Coincide σ (ts.zip us ++ es) := by
  rw [coincide_cons, coincide_append, coincide_zip hl, Term.instantiate_app, Term.instantiate_app,
    Term.coincides_app_iff, and_iff_right hfg]

/-- The sides of an equation may change places. -/
theorem coincide_turn (hσ : σ.Meets .regular) (ht : t.meets .regular = true)
    (hu : u.meets .regular = true) :
    Coincide σ ((t, u) :: es) ↔ Coincide σ ((u, t) :: es) := by
  have htr := hσ.regular_instantiate ht
  have hur := hσ.regular_instantiate hu
  rw [coincide_cons, coincide_cons]
  exact and_congr_left' ⟨Term.coincides_symm htr hur, Term.coincides_symm hur htr⟩

theorem not_coincides_of_clash (h : Clash t u) :
    ¬ (t.instantiate σ).coincides (u.instantiate σ) = true := by
  cases t with
  | var v => exact h.elim
  | const a =>
    cases u with
    | var v => exact h.elim
    | const c =>
      have hs : a.sameSymbol c = false := h
      simp [Term.coincides, hs]
    | app g us => simp [Term.coincides]
  | app f ts =>
    cases u with
    | var v => exact h.elim
    | const c => simp [Term.coincides]
    | app g us =>
      rw [Term.instantiate_app, Term.instantiate_app, Term.coincides_app_iff]
      rintro ⟨hfg, hargs⟩
      rcases h with h | h
      · exact Bool.false_ne_true (h.symm.trans hfg)
      · exact h (by simpa using hargs.length_eq)

/-- One side is ground, and the other one once the assignment is put in. -/
def IsClosed (σ : Assignment) (e : Equation) : Prop :=
  (e.1.isGround = true ∧ (e.2.instantiate σ).isGround = true) ∨
    (e.2.isGround = true ∧ (e.1.instantiate σ).isGround = true)

theorem IsClosed.symm (h : IsClosed σ (t, u)) : IsClosed σ (u, t) := Or.symm h

/-- If one side is a variable, then the other one is ground. -/
theorem IsClosed.of_var (h : IsClosed σ (.var v, t)) :
    t.isGround = true ∧ (σ v).isGround = true := by
  rcases h with ⟨hv, -⟩ | ⟨ht, hv⟩
  · cases hv
  · exact ⟨ht, by rwa [Term.instantiate_var] at hv⟩

theorem IsClosed.args {f g : Value} {ts us : List Term} (h : IsClosed σ (.app f ts, .app g us)) :
    ∀ e ∈ ts.zip us, IsClosed σ e := by
  have hall : ∀ f ts, ((Term.app f ts).instantiate σ).isGround = true →
      ∀ t ∈ ts, (t.instantiate σ).isGround = true := by
    intro f ts hts
    rw [Term.instantiate_app] at hts
    exact List.forall_mem_map.1 (Term.isGroundList_iff.1 hts)
  rintro ⟨t, u⟩ htu
  obtain ⟨ht, hu⟩ := List.of_mem_zip htu
  rcases h with ⟨hts, hus⟩ | ⟨hus, hts⟩
  · exact .inl ⟨Term.isGroundList_iff.1 hts t ht, hall g us hus u hu⟩
  · exact .inr ⟨Term.isGroundList_iff.1 hus u hu, hall f ts hts t ht⟩

/-- **Equations without variables** are compared piece by piece, and nothing is bound. -/
theorem Unified.of_ground (h : Unified es b r) (hp : Posed .regular es b) (hac : b.Acyclic)
    (hes : ∀ e ∈ es, IsClosed b.solution e) :
    r = some b ∧ Coincide b.solution es ∨ r = none ∧ ¬ Coincide b.solution es := by
  have hσ := hac.solution_meets_regular hp.env
  induction h with
  | done => exact .inl ⟨rfl, List.forall_mem_nil _⟩
  | symbol hsame _ ih =>
    rw [coincide_symbol hsame]
    exact ih hp.tail hac (List.forall_mem_cons.1 hes).2 hσ
  | turn _ _ ih =>
    obtain ⟨he, hes⟩ := List.forall_mem_cons.1 hes
    rw [coincide_turn hσ hp.left hp.right]
    exact ih hp.turn hac (List.forall_mem_cons.2 ⟨he.symm, hes⟩) hσ
  | @follow v t u es b r _ hu _ ih =>
    obtain ⟨he, hes⟩ := List.forall_mem_cons.1 hes
    obtain ⟨ht, hv⟩ := he.of_var
    have hvu := hac.solution_of_binds hp.env hu
    rw [hvu] at hv
    rw [coincide_turn hσ hp.left hp.right, coincide_cons, Term.instantiate_var, hvu,
      ← coincide_cons]
    exact ih (hp.follow hu) hac (List.forall_mem_cons.2 ⟨.inl ⟨ht, hv⟩, hes⟩) hσ
  | same | followRight =>
    obtain ⟨hw, -⟩ := (List.forall_mem_cons.1 hes).1.of_var
    cases hw
  -- an unbound variable would be left
  | bind _ hfree | occurs hfree =>
    obtain ⟨-, hv⟩ := (List.forall_mem_cons.1 hes).1.of_var
    rw [hac.solution_of_unbound hp.env hp.isRegular hfree] at hv
    cases hv
  | @decompose f g ts us es b r hfg hl _ ih =>
    obtain ⟨he, hes⟩ := List.forall_mem_cons.1 hes
    rw [coincide_decompose hfg hl]
    exact ih hp.decompose hac (List.forall_mem_append.2 ⟨he.args, hes⟩) hσ
  | clash h => exact .inr ⟨rfl, fun hall => not_coincides_of_clash h (coincide_cons.1 hall).1⟩

/-- A goal without variables is compared with a fact, and nothing is bound. -/
theorem unifyLiterals_ground (hgoal : goal.meets .regular = true)
    (hfact : fact.meets .regular = true) (hground : fact.isGround = true)
    (hb : b.Meets .regular) (hac : b.Acyclic)
    (hclosed : (goal.instantiate b.solution).isGround = true) :
    unifyLiterals goal fact b =
      .ok (if (goal.instantiate b.solution).coincides fact then some b else none) := by
  obtain ⟨r, hr⟩ := unifyLiterals_total hgoal hfact hb hac
  have hunified := unifyLiterals_unified hgoal hfact hb hr
  have hcloses : IsClosed b.solution (goal.asTerm, fact.asTerm) := by
    refine .inr ⟨hground, ?_⟩
    rwa [← Literal.asTerm_instantiate]
  have hcoincide : Coincide b.solution [(goal.asTerm, fact.asTerm)] ↔
      (goal.instantiate b.solution).coincides fact = true := by
    rw [coincide_cons, ← Literal.asTerm_instantiate,
      Term.instantiate_of_isGround (t := fact.asTerm) hground]
    exact and_iff_left (List.forall_mem_nil _)
  rw [hr]
  rcases hunified.of_ground (.single (fun _ h => h) hgoal hfact hb) hac
    (by simpa using hcloses) with ⟨rfl, h⟩ | ⟨rfl, h⟩
  · rw [if_pos (hcoincide.1 h)]
  · rw [if_neg (hcoincide.not.1 h)]

/-! ### The first fact -/

/-- What is found among facts is the first one that the goal `l` under the bindings has for an
instance, with bindings that match it, or nothing, if there is none. -/
inductive FirstInstance (goal l : Literal) (b : Bindings) :
    List Literal → Option (Literal × Bindings) → Prop where
  | none {facts : List Literal} :
      (∀ f ∈ facts, ¬ l.HasInstance f) → FirstInstance goal l b facts none
  | some {before after : List Literal} {fact : Literal} {θ : Bindings} :
      (∀ f ∈ before, ¬ l.HasInstance f) → l.HasInstance fact → MatchesFact goal l fact b θ →
      FirstInstance goal l b (before ++ fact :: after) (some (fact, θ))

theorem FirstInstance.head (h : l.HasInstance fact) (hmatch : MatchesFact goal l fact b θ) :
    FirstInstance goal l b (fact :: facts) (Option.some (fact, θ)) := by
  rw [← List.nil_append (fact :: facts)]
  exact .some (List.forall_mem_nil _) h hmatch

theorem FirstInstance.cons {found : Option (Literal × Bindings)}
    (h : FirstInstance goal l b facts found) (hfact : ¬ l.HasInstance fact) :
    FirstInstance goal l b (fact :: facts) found := by
  cases h with
  | none h => exact .none (List.forall_mem_cons.2 ⟨hfact, h⟩)
  | @some before after _ _ h hinst hmatch =>
    rw [← List.cons_append]
    exact .some (List.forall_mem_cons.2 ⟨hfact, h⟩) hinst hmatch

/-- What a query of the facts finds, where the goal is `l` under the bindings. -/
structure FindsFact (kb : KnowledgeBase) (goal l : Literal) (b : Bindings) : Prop where
  /-- Without a NaN, it is the first fact that is an instance. -/
  first : (∀ f ∈ kb.facts, f.meets .definite = true) → goal.meets .definite = true →
    b.Meets .definite →
    ∃ found, kb.matchFact (.literal goal) b = .ok found ∧ FirstInstance goal l b kb.facts found
  /-- Without a variable, it is the first fact that coincides, and nothing is bound. -/
  ground : l.isGround = true →
    kb.matchFact (.literal goal) b = .ok ((kb.facts.find? l.coincides).map fun f => (f, b))
  /-- A fact with a NaN does not coincide with anything, itself included. -/
  noNaN : ∀ f ∈ kb.facts, l.coincides f = true → f.meets .definite = true

namespace KnowledgeBase

theorem firstMatch_firstInstance
    (hfacts : ∀ f ∈ facts, f.meets .definite = true ∧ f.isGround = true)
    (hgoal : goal.meets .definite = true) (hb : b.Meets .definite) (hac : b.Acyclic) :
    ∃ found, firstMatch goal b facts = .ok found ∧
      FirstInstance goal (goal.instantiate b.solution) b facts found := by
  induction facts with
  | nil => exact ⟨none, rfl, .none (List.forall_mem_nil _)⟩
  | cons f facts ih =>
    obtain ⟨⟨hf, hground⟩, hfacts⟩ := List.forall_mem_cons.1 hfacts
    obtain ⟨r, hr⟩ := unifyLiterals_total hgoal hf hb hac
    rw [firstMatch, hr]
    cases r with
    | none =>
      obtain ⟨found, hfound, hfirst⟩ := ih hfacts
      refine ⟨found, hfound, hfirst.cons fun hinst => ?_⟩
      obtain ⟨θ, hθ⟩ := hinst.unifies hgoal hf hground hb hac hr
      cases hθ
    | some θ =>
      have h : Joined goal f b θ := ⟨Literal.meets_regular_of_definite hgoal,
        Literal.meets_regular_of_definite hf, hb.regular, hr⟩
      exact ⟨_, rfl, .head (h.hasInstance hac hground) (h.matchesFact hac hground)⟩

theorem firstMatch_ground
    (hfacts : ∀ f ∈ facts, f.meets .regular = true ∧ f.isGround = true)
    (hgoal : goal.meets .regular = true) (hb : b.Meets .regular) (hac : b.Acyclic)
    (hclosed : (goal.instantiate b.solution).isGround = true) :
    firstMatch goal b facts =
      .ok ((facts.find? (goal.instantiate b.solution).coincides).map fun f => (f, b)) := by
  induction facts with
  | nil => rfl
  | cons f facts ih =>
    obtain ⟨⟨hf, hground⟩, hfacts⟩ := List.forall_mem_cons.1 hfacts
    rw [firstMatch, unifyLiterals_ground hgoal hf hground hb hac hclosed, List.find?_cons]
    cases (goal.instantiate b.solution).coincides f with
    | true => rfl
    | false => exact ih hfacts

/-- **A query of the facts is a one-sided match**: without NaNs it finds the first fact that the
goal under the bindings has for an instance, and binds what is left in the goal to ground parts
of that fact.  A goal with nothing left finds the first fact that coincides with it. -/
theorem matchFact_finds {kb : KnowledgeBase}
    (hfacts : ∀ f ∈ kb.facts, f.meets .regular = true ∧ f.isGround = true)
    (hgoal : goal.meets .regular = true) (hb : b.Meets .regular) (hac : b.Acyclic) :
    ∃ l, b.substitute (.literal goal) = .ok (.literal l) ∧ FindsFact kb goal l b := by
  refine ⟨_, hac.substitute_literal hb hgoal, ?_, ?_, ?_⟩
  · intro hdefinite hgoal hb
    exact firstMatch_firstInstance (fun f hf => ⟨hdefinite f hf, (hfacts f hf).2⟩) hgoal hb hac
  · exact firstMatch_ground hfacts hgoal hb hac
  · intro f hf
    exact Term.definite_of_coincides (hfacts f hf).1

end KnowledgeBase

namespace Family

/-- Two houses, and who owns them. -/
def homes : KnowledgeBase := .ofList [
  .fact ⟨.str "owns", [person "tom", .app (.str "house") [person "tom", person "bob"]]⟩,
  .fact ⟨.str "owns", [person "ann", .app (.str "house") [person "ann", person "ann"]]⟩]

/-- The house `H` is that of `X` and `Z`, and these two are the same. -/
def alone : Bindings := .ofPairs [
  (.named "H", .app (.str "house") [someone "X", someone "Z"]), (.named "Z", someone "X")]

theorem alone_meets_acyclic : alone.Meets .definite ∧ alone.Acyclic :=
  Bindings.meets_acyclic_ofPairs
    (fun v => if v == .named "H" then 2 else if v == .named "Z" then 1 else 0) _ (by decide)
    (by simp [Variable.named])

/-- An age that is not a number. -/
def ages : KnowledgeBase := .ofList [.fact ⟨.str "age", [.const (.float (.nan 0))]⟩]

end Family

open Family in
/-- The house of two is passed over; and an age that is not a number is not found. -/
theorem matchFact_homes :
    (∃ l θ, alone.substitute (.literal ⟨.str "owns", [someone "X", someone "H"]⟩) =
        .ok (.literal l) ∧
      FirstInstance ⟨.str "owns", [someone "X", someone "H"]⟩ l alone homes.facts
        (some (⟨.str "owns", [person "ann", .app (.str "house") [person "ann", person "ann"]]⟩,
          θ))) ∧
    ages.matchFact (.literal ⟨.str "age", [.const (.float (.nan 0))]⟩) .empty = .ok none := by
  constructor
  · obtain ⟨hb, hac⟩ := alone_meets_acyclic
    have hfacts : ∀ f ∈ homes.facts, f.meets .regular = true ∧ f.isGround = true := by decide
    have hgoal : Literal.meets .regular ⟨.str "owns", [someone "X", someone "H"]⟩ = true := rfl
    obtain ⟨l, hl, h⟩ := KnowledgeBase.matchFact_finds hfacts hgoal hb.regular hac
    obtain ⟨found, hfound, hfirst⟩ := h.first (by decide) rfl hb
    obtain ⟨θ, hθ⟩ : ∃ θ, homes.matchFact (.literal ⟨.str "owns", [someone "X", someone "H"]⟩)
        alone = .ok (some (⟨.str "owns", [person "ann",
          .app (.str "house") [person "ann", person "ann"]]⟩, θ)) := ⟨_, by cbv⟩
    obtain rfl := Except.ok.inj (hfound.symm.trans hθ)
    exact ⟨l, θ, hl, hfirst⟩
  · have hfacts : ∀ f ∈ ages.facts, f.meets .regular = true ∧ f.isGround = true := by decide
    have hgoal : Literal.meets .regular ⟨.str "age", [.const (.float (.nan 0))]⟩ = true := rfl
    obtain ⟨l, hl, h⟩ := KnowledgeBase.matchFact_finds hfacts hgoal Bindings.meets_empty
      Bindings.acyclic_empty
    obtain rfl := Item.literal.inj (Except.ok.inj (hl.symm.trans (by cbv)))
    exact h.ground rfl

end HornSearch
