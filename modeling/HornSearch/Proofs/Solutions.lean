/-
HornSearch/Proofs/Solutions.lean

Solutions of environments.  An assignment solves an environment (`Solves`) if it
gives the variable of each binding what it gives the term that it is bound to; so an
environment is read as a set of equations.

* `Acyclic.solves_solution`: an acyclic environment has its full values for a
  solution;
* `Solves.alike_solution`: that solution is a most general one, since every other
  one is an instance of it;
* `solves_bind_iff`: one binding more is one equation more;
* `Solves.not_alike_of_occurs`: no solution makes a variable equal to a function term
  in whose full value it occurs, since one side would be higher than the other.
-/
import HornSearch.Proofs.Environment

namespace HornSearch

variable {b : Bindings} {σ : Assignment} {v : Variable} {t : Term}

/-- The assignment gives every regular variable a term that meets a criterion. -/
def Assignment.Meets (p : Criterion) (σ : Assignment) : Prop :=
  ∀ v, v.isRegular = true → (σ v).meets p = true

theorem Assignment.Meets.regular (h : σ.Meets .definite) : σ.Meets .regular :=
  fun v hv => Term.meets_regular_of_definite (h v hv)

theorem Assignment.Meets.regular_instantiate (hσ : σ.Meets .regular)
    (ht : t.meets .regular = true) : (t.instantiate σ).meets .regular = true :=
  Term.meets_instantiate ht fun v hv => hσ v (Term.var_of_mem_occurrences (p := .regular) ht hv)

theorem Assignment.Meets.definite_instantiate (hσ : σ.Meets .definite)
    (ht : t.meets .definite = true) : (t.instantiate σ).meets .definite = true :=
  Term.meets_instantiate ht fun v hv => hσ v (Term.var_of_mem_occurrences (p := .definite) ht hv)

/-- The assignment gives the variable of each binding what it gives the term that it
is bound to. -/
def Solves (σ : Assignment) (b : Bindings) : Prop :=
  ∀ v t, b.Binds v t → Term.Alike (σ v) (t.instantiate σ)

theorem solves_bind_iff : Solves σ (b.bind v t) ↔
    Solves σ b ∧ Term.Alike (σ v) (t.instantiate σ) := by
  constructor
  · intro h
    exact ⟨fun w u hw => h w u (Bindings.binds_bind_iff.2 (.inl hw)),
      h v t (Bindings.binds_bind_iff.2 (.inr ⟨rfl, rfl⟩))⟩
  · rintro ⟨h, ht⟩ w u hw
    rcases Bindings.binds_bind_iff.1 hw with hw | ⟨rfl, rfl⟩
    · exact h w u hw
    · exact ht

namespace Bindings

theorem Acyclic.solution_meets_regular (hac : b.Acyclic) (h : b.Meets .regular) :
    b.solution.Meets .regular :=
  fun _ hv => hac.regular_solution h hv

/-- The full values solve the environment. -/
theorem Acyclic.solves_solution (hac : b.Acyclic) (h : b.Meets .regular) :
    Solves b.solution b := by
  intro v t ht
  have e := hac.solution_of_binds h ht
  rw [← e]
  exact Term.alike_refl (hac.regular_solution h (h.isRegular ht))

end Bindings

/-- **The full values are a most general solution**: every solution gives a variable
what it gives its full value. -/
theorem Solves.alike_solution (hs : Solves σ b) (hac : b.Acyclic) (h : b.Meets .regular)
    (hσ : σ.Meets .regular) (hv : v.isRegular = true) :
    Term.Alike (σ v) ((b.solution v).instantiate σ) := by
  induction v using hac.induct with
  | h v ih =>
    -- what `v` is bound to has variables of smaller rank only
    by_cases hb : b.IsBound v
    · obtain ⟨t, ht⟩ := hb
      have htr := h.meets ht
      rw [hac.solution_of_binds h ht, Term.instantiate_instantiate]
      refine Term.alike_trans (hσ v hv) (hσ.regular_instantiate htr) (hs v t ht) ?_
      exact Term.alike_instantiate_of_alike htr fun w hw =>
        ih w ⟨t, ht, hw⟩ (h.dependsOn_regular ⟨t, ht, hw⟩)
    · rw [hac.solution_of_unbound h hv hb]
      exact Term.alike_refl (hσ v hv)

theorem Solves.alike_instantiate_solution (hs : Solves σ b) (hac : b.Acyclic)
    (h : b.Meets .regular) (hσ : σ.Meets .regular) (ht : t.meets .regular = true) :
    Term.Alike (t.instantiate σ) ((t.instantiate b.solution).instantiate σ) := by
  rw [Term.instantiate_instantiate]
  exact Term.alike_instantiate_of_alike ht fun v hv =>
    hs.alike_solution hac h hσ (Term.var_of_mem_occurrences (p := .regular) ht hv)

/-- A variable and a function term in whose full value it occurs are never alike. -/
theorem Solves.not_alike_of_occurs (hs : Solves σ b) (hac : b.Acyclic) (h : b.Meets .regular)
    (hσ : σ.Meets .regular) (hv : v.isRegular = true) {f : Value} {ts : List Term}
    (ht : (Term.app f ts).meets .regular = true)
    (hocc : v ∈ ((Term.app f ts).instantiate b.solution).occurrences) :
    ¬ Term.Alike (σ v) ((Term.app f ts).instantiate σ) := by
  intro hv'
  have hfull := hs.alike_instantiate_solution hac h hσ ht
  have hreg := hσ.regular_instantiate ht
  -- terms alike are equally high, but `v` lies properly inside the other term
  have hheight : (σ v).height =
      (((Term.app f ts).instantiate b.solution).instantiate σ).height := by
    rw [Term.height_eq_of_alike (hσ v hv) hreg hv']
    refine Term.height_eq_of_alike hreg ?_ hfull
    exact hσ.regular_instantiate ((hac.solution_meets_regular h).regular_instantiate ht)
  rw [Term.instantiate_app] at hocc hheight
  obtain ⟨u, hu, hvu⟩ := Term.mem_occurrences_app.1 hocc
  have hle := Term.height_le_instantiate (σ := σ) hvu
  rw [Term.instantiate_app] at hheight
  exact absurd hheight (hle.trans_lt (Term.height_lt_app (List.mem_map_of_mem hu))).ne

end HornSearch
