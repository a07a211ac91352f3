/-
HornSearch/Proofs/OccursCheck.lean

The occurs check is exact.  It is made before an unbound variable is bound to a term, and looks
for the variable in the full value of the term.  There it occurs exactly if it is reached from
the term, and the new binding leads from the variable to the term; so the check finds a
variable exactly if the binding would close a cycle (`Acyclic.bind_iff`).

Against a function term the check also tells whether there is a solution.  Where it finds the
variable, the two sides would have to be equally high although one is a proper part of the
other, whatever constants an assignment puts in (`Solves.not_alike_of_occurs`).  Where it does
not, the full values under the binding are a solution without a NaN.

`IsExactCheck` collects both, and `occursIn_exact` is the main result.
-/
import HornSearch.Proofs.MostGeneral

namespace HornSearch

variable {p : Criterion} {b : Bindings} {v : Variable} {t : Term}

/-- Some assignment of terms that meet the criterion respects the bindings and makes the
variable equal to the term. -/
def Solvable (p : Criterion) (b : Bindings) (v : Variable) (t : Term) : Prop :=
  ∃ σ : Assignment, σ.Meets p ∧ Respects σ b ∧ (σ v == t.instantiate σ) = true

/-- What is wanted of the answer whether `v` occurs in `t` under `b`. -/
structure IsExactCheck (b : Bindings) (v : Variable) (t : Term) (occurs : Bool) : Prop where
  /-- The variable can be bound to the term, and that closes a cycle exactly if it occurs. -/
  acyclic_iff : ∃ c, b.extend (.ofVariable v) (.term t) = .ok c ∧ (c.Acyclic ↔ occurs = false)
  /-- In a function term it occurs exactly if nothing makes the two equal, with NaNs among the
  constants that are put in or without. -/
  unsolvable_iff : b.Meets .definite → t.meets .definite = true → (∃ f ts, t = .app f ts) →
    (occurs = true ↔ ¬ Solvable .definite b v t) ∧ (occurs = true ↔ ¬ Solvable .regular b v t)

/-- **A binding closes a cycle exactly if** the variable occurs in the full value of the
term. -/
theorem Bindings.Acyclic.bind_iff [p.Named] (hac : b.Acyclic) (hb : b.Meets p)
    (hv : ¬ b.IsBound v) (ht : t.meets p = true) :
    (b.bind v t).Acyclic ↔ v ∉ (t.instantiate b.solution).occurrences := by
  constructor
  · intro hbind hocc
    obtain ⟨w, hw, hwv⟩ := Term.mem_occurrences_instantiate.1 hocc
    have hreg := Term.isRegular_of_mem_occurrences ht hw
    -- the new binding leads from `v` to `w`, and old ones from there back to `v`
    have hstep : (b.bind v t).DependsOn v w := ⟨t, binds_bind_iff.2 (.inr ⟨rfl, rfl⟩), hw⟩
    have hkeeps : b.DependsOn ≤ (b.bind v t).DependsOn := by
      rintro x y ⟨u, hu, hy⟩
      exact ⟨u, binds_bind_iff.2 (.inl hu), hy⟩
    have hback : (b.bind v t).Reaches w v :=
      Relation.ReflTransGen.mono hkeeps w v ((hac.mem_occurrences_solution hb hreg).1 hwv).1
    exact hbind v (Relation.TransGen.head' hstep hback)
  · exact hac.bind hb hv ht

/-- A variable that does not occur in the full value of a term can be made equal to it. -/
theorem solvable_of_not_occurs (hac : b.Acyclic) (hb : b.Meets .definite)
    (hreg : v.isRegular = true) (hv : ¬ b.IsBound v) (ht : t.meets .definite = true)
    (hocc : v ∉ (t.instantiate b.solution).occurrences) : Solvable .definite b v t := by
  have hc : (b.bind v t).Meets .definite := hb.bind hreg ht hv
  have hacc : (b.bind v t).Acyclic := (hac.bind_iff hb hv ht).2 hocc
  have hσ : (b.bind v t).solution.Meets .definite := fun _ hw => hacc.definite_solution hc hw
  obtain ⟨hs, halike⟩ := solves_bind_iff.1 (hacc.solves_solution hc.regular)
  exact ⟨_, hσ, (respects_iff_solves hσ hb).2 hs, (Term.beq_iff_alike (hσ v hreg)).2 halike⟩

/-- A variable that occurs in the full value of a function term is never made equal to it. -/
theorem not_solvable_of_occurs (hac : b.Acyclic) (hb : b.Meets .regular)
    (hreg : v.isRegular = true) {f : Value} {ts : List Term}
    (ht : (Term.app f ts).meets .regular = true)
    (hocc : v ∈ ((Term.app f ts).instantiate b.solution).occurrences) :
    ¬ Solvable .regular b v (.app f ts) := by
  rintro ⟨σ, hσ, hrespects, hequal⟩
  have hs : Solves σ b := fun w u hw => Term.alike_of_beq (hrespects w u hw)
  exact hs.not_alike_of_occurs hac hb hσ hreg ht hocc (Term.alike_of_beq hequal)

/-- **The occurs check is exact**: it finds a variable in a term exactly if binding it to the
term would close a cycle, and in a function term exactly if there is no solution. -/
theorem occursIn_exact (hb : b.Meets .loose) (hac : b.Acyclic) (hreg : v.isRegular = true)
    (hv : ¬ b.IsBound v) (ht : t.meets .loose = true) :
    ∃ occurs, occursIn (.ofVariable v) (.term t) b = .ok occurs ∧ IsExactCheck b v t occurs := by
  obtain ⟨occurs, hcheck, hocc⟩ := Unified.occursIn_eq_ok hac hb hreg ht
  refine ⟨occurs, hcheck, ⟨_, hb.extend_eq hreg hv, ?_⟩, ?_⟩
  · rw [hac.bind_iff hb hv ht, ← hocc, Bool.not_eq_true]
  · rintro hb' ht' ⟨f, ts, rfl⟩
    have hnone : occurs = true → ¬ Solvable .regular b v (.app f ts) := fun h =>
      not_solvable_of_occurs hac hb'.regular hreg (Term.meets_regular_of_definite ht') (hocc.1 h)
    have hsome : occurs ≠ true → Solvable .definite b v (.app f ts) := fun h =>
      solvable_of_not_occurs hac hb' hreg hv ht' (mt hocc.2 h)
    have hwiden : Solvable .definite b v (.app f ts) → Solvable .regular b v (.app f ts) :=
      fun ⟨σ, hσ, hrest⟩ => ⟨σ, hσ.regular, hrest⟩
    refine ⟨⟨fun h hs => hnone h (hwiden hs), fun h => ?_⟩, ⟨hnone, fun h => ?_⟩⟩
    · by_contra hne
      exact h (hsome hne)
    · by_contra hne
      exact h (hwiden (hsome hne))

/-- `?X` against `f(?Z, ?Y)` where `?Y` stands for `g(?X)`: the check looks through `?Y`. -/
theorem exactCheck_loop :
    let b : Bindings := .ofPairs [(.named "Y", .app (.str "g") [.var (.named "X")])]
    let v : Variable := .named "X"
    let t : Term := .app (.str "f") [.var (.named "Z"), .var (.named "Y")]
    b.Meets .loose ∧ b.Acyclic ∧ ¬ b.IsBound v ∧
      occursIn (.ofVariable v) (.term t) b = .ok true ∧ IsExactCheck b v t true ∧
      b.Meets .definite ∧ t.meets .definite = true ∧ ¬ Solvable .regular b v t := by
  intro b v t
  obtain ⟨hb, hac⟩ : b.Meets .definite ∧ b.Acyclic := Bindings.meets_acyclic_ofPairs
    (fun w => if w == .named "Y" then 1 else 0) _ (by decide) (by simp)
  have hv : ¬ b.IsBound v := by
    rintro ⟨u, hu⟩
    simpa [v, Variable.named] using List.mem_singleton.1 (Bindings.binds_ofPairs_iff.1 hu)
  obtain ⟨occurs, hcheck, hexact⟩ := occursIn_exact (t := t) hb.loose hac rfl hv rfl
  have htrue : occursIn (.ofVariable v) (.term t) b = .ok true := rfl
  obtain rfl : true = occurs := Except.ok.inj (htrue.symm.trans hcheck)
  exact ⟨hb.loose, hac, hv, htrue, hexact, hb, rfl,
    (hexact.unsolvable_iff hb rfl ⟨_, _, rfl⟩).2.1 rfl⟩

end HornSearch
