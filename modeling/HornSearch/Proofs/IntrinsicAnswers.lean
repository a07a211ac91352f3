/-
HornSearch/Proofs/IntrinsicAnswers.lean

What the answer of unification does not depend on: the names of variables, and the bindings of
variables that the operands do not reach.

Renamed operands have the renamed answer (`Matched.unify_rename`).  As to the bindings, an
environment agrees with another one on a term if it has the same bindings for all variables
that the term leads to (`Bindings.AgreesOn`).  Every rule of derivations looks at nothing else:
the occurs check takes the full value of a term, for which these bindings are all that matters
(`AgreesOn.occursIn_eq`).  A binding that is added to both environments keeps them in
agreement, since a chain through it goes on in a term on which they agree (`AgreesOn.bind`).
So a derivation under the one is a derivation under the other and adds the same bindings to it
(`Unified.transfer`).

`Intrinsic` collects what is wanted of an answer, and `unify_intrinsic` is the main result.
-/
import HornSearch.Proofs.Equivariance
import HornSearch.Proofs.FullValues
import HornSearch.Proofs.Growth

namespace HornSearch

variable {p : Criterion} {b c : Bindings} {x y : Item} {es : List Equation}
variable {r r' : Option Bindings} {t u : Term} {v w : Variable}

/-! ### Environments that agree on a term -/

namespace Bindings

/-- The environment `c` has the bindings that `b` has for each variable that is reached from
the term through `b`. -/
def AgreesOn (b c : Bindings) (t : Term) : Prop :=
  b.AllReached (fun w => ∀ u, c.Binds w u ↔ b.Binds w u) t

namespace AgreesOn

theorem binds_iff (h : b.AgreesOn c (.var v)) : c.Binds v u ↔ b.Binds v u := AllReached.self h u

theorem isBound_iff (h : b.AgreesOn c (.var v)) : c.IsBound v ↔ b.IsBound v :=
  exists_congr fun _ => h.binds_iff

theorem follow (h : b.AgreesOn c (.var v)) (ht : b.Binds v t) : b.AgreesOn c t :=
  AllReached.follow h ht

/-- **One binding more** on both sides, to a term on which the environments agree, keeps all
agreement. -/
theorem bind (h : b.AgreesOn c u) (ht : b.AgreesOn c t) :
    (b.bind v t).AgreesOn (c.bind v t) u := by
  refine (AllReached.bind h ht).imp fun w hw s => ?_
  rw [binds_bind_iff, binds_bind_iff, hw s]

variable [p.Named]

/-- Agreement on a term is agreement on all that is found from its variables on. -/
theorem agreesFrom (h : b.AgreesOn c (.var v)) (hb : b.Meets p) (hc : c.Meets .loose)
    (hv : v.isRegular = true) : b.AgreesFrom c v := by
  intro w hvw
  have hw : w.isRegular = true := by
    rcases Relation.ReflTransGen.cases_tail hvw with rfl | ⟨x, -, hxw⟩
    · exact hv
    · exact hb.dependsOn_regular hxw
  have hiff := h v (List.mem_singleton_self v) w hvw
  by_cases hbound : b.IsBound w
  · obtain ⟨t, ht⟩ := hbound
    rw [hb.lookup_of_binds ht, hc.lookup_of_binds ((hiff t).2 ht)]
  · have hbound' : ¬ c.IsBound w := mt (exists_congr hiff).1 hbound
    rw [hb.lookup_of_unbound hw hbound, hc.lookup_of_unbound hw hbound']

/-- The occurs check looks at nothing but the bindings that the term leads to. -/
theorem occursIn_eq (h : b.AgreesOn c t) (hac : b.Acyclic) (hb : b.Meets p)
    (hc : c.Meets .loose) (ht : t.meets p = true) (key : Item) :
    occursIn key (.term t) c = occursIn key (.term t) b := by
  have hsub : c.substitute (.term t) = b.substitute (.term t) := by
    rw [hac.substitute_term hb ht]
    refine bindM_term_eq_ok fun v hv => ?_
    have hreg := Term.isRegular_of_mem_occurrences ht hv
    exact hac.valueOf_of_agrees hb hc hreg (agreesFrom (h.of_mem_occurrences hv) hb hc hreg)
  rw [occursIn, occursIn, hsub]

end AgreesOn

end Bindings

/-! ### Derivations under another environment -/

/-- Both fail, or both add the same bindings in the same order: the first one to `b` and the
second one to `c`. -/
inductive AddAlike (b c : Bindings) : Option Bindings → Option Bindings → Prop where
  | failures : AddAlike b c none none
  | environments (new : List (Item × Item)) :
      AddAlike b c (some ⟨b.entries ++ new⟩) (some ⟨c.entries ++ new⟩)

theorem AddAlike.nothing (b c : Bindings) : AddAlike b c (some b) (some c) := by
  simpa using AddAlike.environments (b := b) (c := c) []

theorem AddAlike.of_bind (h : AddAlike (b.bind v t) (c.bind v t) r r') : AddAlike b c r r' := by
  cases h with
  | failures => exact .failures
  | environments new =>
    simp only [Bindings.bind, List.append_assoc]
    exact .environments _

/-- **A derivation goes through under an environment that agrees** on both sides of the
equations, and adds the same bindings to it. -/
theorem Unified.transfer (h : Unified es b r) (hp : Posed p es b) (hac : b.Acyclic)
    (hc : c.Meets .loose) (hes : ∀ e ∈ es, b.AgreesOn c e.1 ∧ b.AgreesOn c e.2) :
    ∃ r', Unified es c r' ∧ AddAlike b c r r' := by
  have := hp.named
  induction h generalizing c with
  | done => exact ⟨_, .done, .nothing _ _⟩
  | symbol hs _ ih =>
    obtain ⟨r', hu, hadd⟩ := ih hp.tail hac hc (List.forall_mem_cons.1 hes).2
    exact ⟨r', .symbol hs hu, hadd⟩
  | turn ht _ ih =>
    obtain ⟨he, hes⟩ := List.forall_mem_cons.1 hes
    obtain ⟨r', hu, hadd⟩ := ih hp.turn hac hc (List.forall_mem_cons.2 ⟨he.symm, hes⟩)
    exact ⟨r', .turn ht hu, hadd⟩
  | same _ ih =>
    obtain ⟨r', hu, hadd⟩ := ih hp.tail hac hc (List.forall_mem_cons.1 hes).2
    exact ⟨r', .same hu, hadd⟩
  | follow hne hu _ ih =>
    obtain ⟨⟨hv, ht⟩, hes⟩ := List.forall_mem_cons.1 hes
    obtain ⟨r', hrest, hadd⟩ := ih (hp.follow hu) hac hc
      (List.forall_mem_cons.2 ⟨⟨ht, hv.follow hu⟩, hes⟩)
    exact ⟨r', .follow hne (hv.binds_iff.2 hu) hrest, hadd⟩
  | followRight hvw hfree hu _ ih =>
    obtain ⟨⟨hv, hw⟩, hes⟩ := List.forall_mem_cons.1 hes
    obtain ⟨r', hrest, hadd⟩ := ih (hp.followRight hu) hac hc
      (List.forall_mem_cons.2 ⟨⟨hv, hw.follow hu⟩, hes⟩)
    exact ⟨r', .followRight hvw (mt hv.isBound_iff.1 hfree) (hw.binds_iff.2 hu) hrest, hadd⟩
  | @bind v t es b r hne hfree hw hocc _ ih =>
    obtain ⟨⟨hv, ht⟩, hes⟩ := List.forall_mem_cons.1 hes
    have hfree' : ¬ c.IsBound v := mt hv.isBound_iff.1 hfree
    have hc' : (c.bind v t).Meets .loose := hc.bind hp.isRegular (Term.meets_loose hp.right) hfree'
    have hac' := hac.bind hp.env hfree hp.right (not_occurs_of_bind hac hp hne hw hocc)
    obtain ⟨r', hrest, hadd⟩ := ih (hp.bind hfree) hac' hc'
      fun e he => (hes e he).imp (fun h => h.bind ht) fun h => h.bind ht
    refine ⟨r', .bind hne hfree' ?_ ?_ hrest, hadd.of_bind⟩
    · rintro w rfl
      exact mt ht.isBound_iff.1 (hw w rfl)
    · rintro f ts rfl
      rw [ht.occursIn_eq hac hp.env hc hp.right]
      exact hocc f ts rfl
  | occurs hfree hocc =>
    obtain ⟨⟨hv, ht⟩, -⟩ := List.forall_mem_cons.1 hes
    refine ⟨none, .occurs (mt hv.isBound_iff.1 hfree) ?_, .failures⟩
    rw [ht.occursIn_eq hac hp.env hc hp.right, hocc]
  | @decompose f g ts us es b r hfg hl _ ih =>
    obtain ⟨⟨hts, hus⟩, hes⟩ := List.forall_mem_cons.1 hes
    have hargs : ∀ e ∈ ts.zip us, b.AgreesOn c e.1 ∧ b.AgreesOn c e.2 := by
      rintro ⟨t, u⟩ htu
      exact ⟨hts.arg (List.of_mem_zip htu).1, hus.arg (List.of_mem_zip htu).2⟩
    obtain ⟨r', hu, hadd⟩ := ih hp.decompose hac hc (List.forall_mem_append.2 ⟨hargs, hes⟩)
    exact ⟨r', .decompose hfg hl hu, hadd⟩
  | clash hclash => exact ⟨none, .clash hclash, .failures⟩

/-! ### Bindings out of reach -/

/-- An environment with more bindings agrees on the operands if these bindings are out of their
reach. -/
theorem Bindings.agreesOn_of_unreached (hsub : ∀ v t, b.Binds v t → c.Binds v t)
    (hc : c.Meets p) (hnew : ∀ v, c.IsBound v → b.IsBound v ∨ ¬ b.ReachedFrom x y v) :
    b.AgreesOn c x.operand ∧ b.AgreesOn c y.operand := by
  have hiff : ∀ w, b.ReachedFrom x y w → ∀ u, c.Binds w u ↔ b.Binds w u := by
    intro w hw u
    refine ⟨fun hu => ?_, hsub w u⟩
    obtain ⟨t, ht⟩ := (hnew w ⟨u, hu⟩).resolve_right (not_not_intro hw)
    -- the binding that there was is the only one
    rwa [hc.unique hu (hsub w t ht)]
  exact ⟨fun v hv w hvw => hiff w ⟨v, .inl hv, hvw⟩, fun v hv w hvw => hiff w ⟨v, .inr hv, hvw⟩⟩

/-- What is wanted of the answer to unifying `x` and `y` under `b`. -/
structure Intrinsic (x y : Item) (b : Bindings) (r : Option Bindings) : Prop where
  /-- Renamed operands have the renamed answer under the renamed environment, binding by
  binding. -/
  renamed : ∀ ρ, IsRenaming ρ →
    unify (x.renameOperand ρ) (y.renameOperand ρ) (b.rename ρ) = .ok (r.map (Bindings.rename ρ))
  /-- Under an environment with more bindings, of variables that are not reached from the
  operands, it is the same that is added, if anything is. -/
  unreached : ∀ c : Bindings, c.Meets .loose → c.Acyclic → (∀ v t, b.Binds v t → c.Binds v t) →
    (∀ v, c.IsBound v → b.IsBound v ∨ ¬ b.ReachedFrom x y v) →
    ∃ r', unify x y c = .ok r' ∧ AddAlike b c r r'

/-- **The answer of unification is intrinsic**: it depends neither on the names of variables
nor on bindings out of reach. -/
theorem unify_intrinsic (h : Matched .loose x y) (hb : b.Meets .loose) (hac : b.Acyclic) :
    ∃ r, unify x y b = .ok r ∧ Intrinsic x y b r := by
  obtain ⟨r, hr⟩ := h.unify_total hb hac
  refine ⟨r, hr, fun ρ hρ => h.unify_rename hb hac hρ hr, fun c hc hacc hsub hnew => ?_⟩
  obtain ⟨r', hr'⟩ := h.unify_total hc hacc
  have hagree := Bindings.agreesOn_of_unreached hsub hc hnew
  obtain ⟨r'', hu, hadd⟩ := (h.unified hb hr).transfer (h.posed rfl hb) hac hc
    (List.forall_mem_singleton.2 hagree)
  obtain rfl := (h.unified hc hr').unique (h.posed rfl hc) hu
  exact ⟨r', hr', hadd⟩

open Family in
/-- `f(?X, ?Y)` against `f(?Y, g(?Z))`, where `?Z` stands for `?W`: with other serials, and with
a binding of `?A` in front that leads to `?X` but is out of reach itself. -/
theorem intrinsic_pair :
    let x : Item := .term (.app (.str "f") [.var (.named "X"), .var (.named "Y")])
    let y : Item := .term (.app (.str "f")
      [.var (.named "Y"), .app (.str "g") [.var (.named "Z")]])
    let b : Bindings := .ofPairs [(.named "Z", .var (.named "W"))]
    let c : Bindings := .ofPairs [(.named "A", .var (.named "X")), (.named "Z", .var (.named "W"))]
    let θ := (b.bind (.named "X") (.var (.named "Y"))).bind (.named "Y")
      (.app (.str "g") [.var (.named "Z")])
    let θ' := (c.bind (.named "X") (.var (.named "Y"))).bind (.named "Y")
      (.app (.str "g") [.var (.named "Z")])
    Matched .loose x y ∧ b.Meets .loose ∧ b.Acyclic ∧ unify x y b = .ok (some θ) ∧
      unify (x.renameOperand later) (y.renameOperand later) (b.rename later) =
        .ok (some (θ.rename later)) ∧
      unify x y c = .ok (some θ') ∧ AddAlike b c (some θ) (some θ') := by
  intro x y b c θ θ'
  have hxy : Matched .loose x y := .terms rfl rfl
  obtain ⟨hb, hac⟩ : b.Meets .loose ∧ b.Acyclic := Bindings.meets_acyclic_ofPairs
    (fun v => if v == .named "Z" then 1 else 0) _ (by decide) (by simp)
  obtain ⟨hc, hacc⟩ : c.Meets .loose ∧ c.Acyclic := Bindings.meets_acyclic_ofPairs
    (fun v => if v == .named "Z" || v == .named "A" then 1 else 0) _ (by decide)
    (by simp [Variable.named])
  have hsub : ∀ v t, b.Binds v t → c.Binds v t := fun v t ht => List.mem_cons_of_mem _ ht
  have hlater : IsRenaming later := by
    refine ⟨later_injective, fun v hv => ?_⟩
    obtain ⟨name, n, rfl⟩ := Variable.isRegular_iff.1 hv
    rfl
  have hnew : ∀ v, c.IsBound v → b.IsBound v ∨ ¬ b.ReachedFrom x y v := by
    rintro v ⟨t, ht⟩
    rcases List.mem_cons.1 (Bindings.binds_ofPairs_iff.1 ht) with hvt | hvt
    · obtain ⟨rfl, rfl⟩ := Prod.mk.inj hvt
      right
      rintro ⟨u, hu, huv⟩
      -- no operand has `?A`, and `b` leads to `?W` only
      rcases Relation.ReflTransGen.cases_tail huv with rfl | ⟨w, -, s, hs, hA⟩
      · simp [x, y, Item.operand, Item.toTerm, Term.occurrences, Term.occurrencesList,
          Variable.named] at hu
      · obtain ⟨-, rfl⟩ := Prod.mk.inj (List.mem_singleton.1 (Bindings.binds_ofPairs_iff.1 hs))
        simp [Term.occurrences, Variable.named] at hA
    · exact .inl ⟨t, Bindings.binds_ofPairs_iff.2 hvt⟩
  obtain ⟨r, hr, h⟩ := unify_intrinsic hxy hb hac
  obtain ⟨r', hr', hadd⟩ := h.unreached c hc hacc hsub hnew
  have hθ : unify x y b = .ok (some θ) := rfl
  have hθ' : unify x y c = .ok (some θ') := rfl
  obtain rfl : r = some θ := Except.ok.inj (hr.symm.trans hθ)
  obtain rfl : r' = some θ' := Except.ok.inj (hr'.symm.trans hθ')
  exact ⟨hxy, hb, hac, hr, h.renamed later hlater, hr', hadd⟩

end HornSearch
