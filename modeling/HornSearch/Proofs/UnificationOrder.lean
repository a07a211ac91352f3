/-
HornSearch/Proofs/UnificationOrder.lean

The order in which equations are taken does not matter.  Unification inspects the left operand
first, directs bindings between variables and threads the environment from left to right, so
operands that change places, or positions of sequences that do, give other environments.  But
all of these are most general unifiers, and most general unifiers of one problem are instances
of each other.

Two environments that are instances of each other differ by a renaming
(`equivalent_of_solves`).  A variable that one of them leaves free stands for a variable under
the other one, and that leads back to it.  This is a bijection of the free variables, which
moves only variables that one of the environments mentions; hence it is part of a permutation
of all variables.

`OrderFree b` collects what is wanted of unification under `b`: it is symmetric, independent
of the order of positions, and fails under a longer environment where it fails under `b`.
`unify_orderFree` is the main result.
-/
import HornSearch.Proofs.MostGeneral
import HornSearch.Proofs.Renamings

namespace HornSearch

variable {b θ θ' : Bindings} {x y x' y' : Item} {es es' : List Equation} {r r' : Option Bindings}
variable {v : Variable}

/-- The environments give every variable the same full value, up to one renaming of
variables. -/
def Equivalent (θ θ' : Bindings) : Prop :=
  ∃ π : Equiv.Perm Variable, KeepsRegular π ∧ ∀ v, v.isRegular = true →
    ∃ t t', θ.substitute (.ofVariable v) = .ok (.term t) ∧
      θ'.substitute (.ofVariable v) = .ok (.term t') ∧ (t.rename π == t') = true

/-- Both fail, or both succeed with equivalent environments. -/
inductive AgreeUpToNames : Checked (Option Bindings) → Checked (Option Bindings) → Prop where
  | failures : AgreeUpToNames (.ok none) (.ok none)
  | environments {θ θ' : Bindings} :
      Equivalent θ θ' → AgreeUpToNames (.ok (some θ)) (.ok (some θ'))

/-- What is wanted of unification under `b`. -/
structure OrderFree (b : Bindings) : Prop where
  /-- The operands may change places. -/
  symmetric : ∀ x y, Matched .definite x y → AgreeUpToNames (unify x y b) (unify y x b)
  /-- The positions of sequences may change places, in both sequences alike. -/
  permuted : ∀ (n : Nat) (ts us : Fin n → Term) (π : Equiv.Perm (Fin n)) (x y x' y' : Item),
    (∀ i, (ts i).meets .definite = true) → (∀ i, (us i).meets .definite = true) →
    x.IsSequenceOf (List.ofFn ts) → y.IsSequenceOf (List.ofFn us) →
    x'.IsSequenceOf (List.ofFn fun i => ts (π i)) →
    y'.IsSequenceOf (List.ofFn fun i => us (π i)) →
    AgreeUpToNames (unify x y b) (unify x' y' b)
  /-- What fails under `b` fails under every environment with its bindings. -/
  antitone : ∀ x y, Matched .definite x y → unify x y b = .ok none →
    ∀ b' : Bindings, b'.Meets .regular → b'.Acyclic → (∀ v t, b.Binds v t → b'.Binds v t) →
      unify x y b' = .ok none

/-! ### Environments that are instances of each other -/

section Instances

variable (hθ : θ.Meets .definite) (hac : θ.Acyclic) (hθ' : θ'.Meets .definite)
  (hac' : θ'.Acyclic)

include hθ hac hθ' hac'

/-- A free variable stands for a variable under the other environment, which leads back to
it. -/
theorem exists_partner (h : Solves θ.solution θ') (hv : v.isRegular = true)
    (hfree : ¬ θ.IsBound v) : ∃ w, θ'.solution v = .var w ∧ θ.solution w = .var v := by
  have hσ := hac.solution_meets_regular hθ.regular
  have hback := h.alike_solution hac' hθ'.regular hσ hv
  rw [hac.solution_of_unbound hθ.regular hv hfree,
    Term.alike_var_iff hv (hσ.regular_instantiate (hac'.regular_solution hθ'.regular hv))] at hback
  exact Term.eq_var_of_instantiate hback

/-- One permutation does on all free variables what the other environment does. -/
theorem exists_perm_of_solves (h : Solves θ.solution θ') :
    ∃ π : Equiv.Perm Variable, KeepsRegular π ∧ ∀ v, v.isRegular = true → ¬ θ.IsBound v →
      θ'.solution v = .var (π v) := by
  obtain ⟨vs, hvs⟩ := hθ.exists_mentioned
  obtain ⟨vs', hvs'⟩ := hθ'.exists_mentioned
  have hregular : ∀ v ∈ vs ++ vs', v.isRegular = true := by
    intro v hv
    rcases List.mem_append.1 hv with hv | hv
    · exact hθ.regular.isRegular_of_mentions ((hvs v).1 hv)
    · exact hθ'.regular.isRegular_of_mentions ((hvs' v).1 hv)
  have hpartner : ∀ v, ∃ w, v.isRegular = true → ¬ θ.IsBound v →
      θ'.solution v = .var w ∧ θ.solution w = .var v := by
    intro v
    by_cases hv : v.isRegular = true ∧ ¬ θ.IsBound v
    · obtain ⟨w, hw⟩ := exists_partner hθ hac hθ' hac' h hv.1 hv.2
      exact ⟨w, fun _ _ => hw⟩
    · exact ⟨v, fun hr hf => absurd ⟨hr, hf⟩ hv⟩
  choose ρ hρ using hpartner
  have hmem : ∀ v ∈ vs ++ vs', ¬ θ.IsBound v → ρ v ∈ vs ++ vs' := by
    intro v hv hfree
    obtain ⟨hvw, hwv⟩ := hρ v (hregular v hv) hfree
    by_contra hnot
    -- a variable that nothing mentions stands for itself, so it would be `v`
    have hw : (ρ v).isRegular = true :=
      hac'.isRegular_of_mem_solution hθ' (hregular v hv) (by simp [hvw, Term.occurrences])
    have hunbound : ¬ θ.IsBound (ρ v) := by
      rintro ⟨t, ht⟩
      exact hnot (List.mem_append_left _ ((hvs _).2 ⟨_, t, ht, .inl rfl⟩))
    rw [hac.solution_of_unbound hθ.regular hw hunbound] at hwv
    rw [Term.var.inj hwv] at hnot
    exact hnot hv
  have hinj : ∀ v ∈ vs ++ vs', ¬ θ.IsBound v → ∀ w ∈ vs ++ vs', ¬ θ.IsBound w →
      ρ v = ρ w → v = w := by
    intro v hv hfree w hw hfree' hvw
    have hback := (hρ v (hregular v hv) hfree).2
    rw [hvw, (hρ w (hregular w hw) hfree').2] at hback
    exact (Term.var.inj hback).symm
  obtain ⟨π, hπ, heq, hfix⟩ := exists_perm_within hregular hmem hinj
  refine ⟨π, hπ, fun v hv hfree => ?_⟩
  by_cases hv' : v ∈ vs ++ vs'
  · rw [heq v hv' hfree]
    exact (hρ v hv hfree).1
  · rw [hfix v hv']
    refine hac'.solution_of_unbound hθ'.regular hv ?_
    rintro ⟨t, ht⟩
    exact hv' (List.mem_append_right _ ((hvs' v).2 ⟨v, t, ht, .inl rfl⟩))

/-- **Environments that are instances of each other** are equivalent. -/
theorem equivalent_of_solves (h : Solves θ.solution θ') (h' : Solves θ'.solution θ) :
    Equivalent θ θ' := by
  obtain ⟨π, hπ, heq⟩ := exists_perm_of_solves hθ hac hθ' hac' h
  refine ⟨π, hπ, fun v hv => ⟨θ.solution v, θ'.solution v, ?_, ?_, ?_⟩⟩
  · exact hac.substitute_term hθ.regular (t := .var v) hv
  · exact hac'.substitute_term hθ'.regular (t := .var v) hv
  · have hσ' := hac'.solution_meets_regular hθ'.regular
    have hσ'' : θ'.solution.Meets .definite := fun _ hv => hac'.definite_solution hθ' hv
    have hfull := hac.definite_solution hθ hv
    -- renaming what is left free is passing on to the other environment
    have hrename : (θ.solution v).rename π = (θ.solution v).instantiate θ'.solution := by
      rw [Term.rename_eq_instantiate]
      refine Term.instantiate_congr fun w hw => ?_
      have hfree := ((hac.mem_occurrences_solution hθ.regular hv).1 hw).2
      exact (heq w (hac.isRegular_of_mem_solution hθ hv hw) hfree).symm
    rw [hrename, Term.beq_iff_alike (hσ''.definite_instantiate hfull)]
    exact Term.alike_symm (hσ' v hv) (hσ'.regular_instantiate (Term.meets_regular_of_definite hfull))
      (h'.alike_solution hac hθ.regular hσ' hv)

end Instances

/-! ### One problem stated twice -/

/-- An environment that solves one statement of a problem leads to one that solves the other,
of which it is an instance. -/
theorem Unified.carries (h : Unified es b (some θ)) (h' : Unified es' b r')
    (hp : Posed .definite es b) (hp' : Posed .definite es' b) (hac : b.Acyclic)
    (hes : ∀ σ : Assignment, σ.Meets .regular → Equalizes σ es → Equalizes σ es') :
    ∃ θ', r' = some θ' ∧ Solves θ.solution θ' := by
  have hθ := h.meets rfl hp.regular
  have hacθ := h.acyclic rfl hp.regular hac
  have hσ := hacθ.solution_meets_regular hθ
  obtain ⟨hs, he⟩ := h.sound rfl hp.regular hσ (hacθ.solves_solution hθ)
  exact h'.complete hp' hac hσ hs (hes _ hσ he)

/-- **Equations with the same solutions** have answers that agree. -/
theorem Unified.agree (h : Unified es b r) (h' : Unified es' b r') (hp : Posed .definite es b)
    (hp' : Posed .definite es' b) (hac : b.Acyclic)
    (hes : ∀ σ : Assignment, σ.Meets .regular → (Equalizes σ es ↔ Equalizes σ es')) :
    AgreeUpToNames (.ok r) (.ok r') := by
  cases r with
  | none =>
    cases r' with
    | none => exact .failures
    | some θ' =>
      obtain ⟨θ, hθ, -⟩ := h'.carries h hp' hp hac fun σ hσ => (hes σ hσ).2
      cases hθ
  | some θ =>
    obtain ⟨θ', rfl, hs⟩ := h.carries h' hp hp' hac fun σ hσ => (hes σ hσ).1
    obtain ⟨c, hc, hs'⟩ := h'.carries h hp' hp hac fun σ hσ => (hes σ hσ).2
    obtain rfl := Option.some.inj hc
    exact .environments (equivalent_of_solves (h.meets rfl hp) (h.acyclic rfl hp hac)
      (h'.meets rfl hp') (h'.acyclic rfl hp' hac) hs hs')

/-- So have operands that the same assignments make alike. -/
theorem Matched.agree (h : Matched .definite x y) (h' : Matched .definite x' y')
    (hb : b.Meets .definite) (hac : b.Acyclic)
    (heq : ∀ σ : Assignment, σ.Meets .regular →
      (Term.Alike (x.operand.instantiate σ) (y.operand.instantiate σ) ↔
        Term.Alike (x'.operand.instantiate σ) (y'.operand.instantiate σ))) :
    AgreeUpToNames (unify x y b) (unify x' y' b) := by
  obtain ⟨r, hr⟩ := h.unify_total hb hac
  obtain ⟨r', hr'⟩ := h'.unify_total hb hac
  rw [hr, hr']
  refine (h.unified hb hr).agree (h'.unified hb hr') (h.posed rfl hb) (h'.posed rfl hb) hac ?_
  intro σ hσ
  simpa [Equalizes] using heq σ hσ

/-- Sequences of one length are alike position by position. -/
theorem Item.IsSequenceOf.alike_iff {n : Nat} {ts us : Fin n → Term} {σ : Assignment}
    (hx : x.IsSequenceOf (List.ofFn ts)) (hy : y.IsSequenceOf (List.ofFn us)) :
    Term.Alike (x.operand.instantiate σ) (y.operand.instantiate σ) ↔
      ∀ i, Term.Alike ((ts i).instantiate σ) ((us i).instantiate σ) := by
  rw [hx.operand_eq, hy.operand_eq, Term.instantiate_app, Term.instantiate_app,
    Term.alike_app_iff, List.map_ofFn, List.map_ofFn]
  have heach : List.Forall₂ Term.Alike (List.ofFn (Term.instantiate σ ∘ ts))
      (List.ofFn (Term.instantiate σ ∘ us)) ↔
        ∀ i, Term.Alike ((ts i).instantiate σ) ((us i).instantiate σ) := by
    simp [List.forall₂_iff_get, Fin.forall_iff]
  constructor
  · rintro ⟨g, ws, hg, -, h⟩
    obtain ⟨-, rfl⟩ := Term.app.inj hg
    exact heach.1 h
  · intro h
    exact ⟨_, _, rfl, by simp, heach.2 h⟩

/-- **Unification is free of order**: of the order of its operands and of their positions, up
to the names of variables; and a longer environment makes nothing unify that did not. -/
theorem unify_orderFree (hb : b.Meets .definite) (hac : b.Acyclic) : OrderFree b := by
  refine ⟨fun x y h => ?_, fun n ts us π x y x' y' hts hus hx hy hx' hy' => ?_,
    fun x y h hfail b' hb' hac' hsub => ?_⟩
  · refine h.agree h.symm hb hac fun σ hσ => ?_
    have hp := h.regular.posed rfl hb.regular
    have hl := hσ.regular_instantiate hp.left
    have hr := hσ.regular_instantiate hp.right
    exact ⟨Term.alike_symm hl hr, Term.alike_symm hr hl⟩
  · have h : Matched .definite x y :=
      .sequences hx hy (List.forall_mem_ofFn_iff.2 hts) (List.forall_mem_ofFn_iff.2 hus)
    have h' : Matched .definite x' y' :=
      .sequences hx' hy' (List.forall_mem_ofFn_iff.2 fun i => hts (π i))
        (List.forall_mem_ofFn_iff.2 fun i => hus (π i))
    refine h.agree h' hb hac fun σ _ => ?_
    rw [hx.alike_iff hy, hx'.alike_iff hy']
    exact (π.forall_congr_right (q := fun i =>
      Term.Alike ((ts i).instantiate σ) ((us i).instantiate σ))).symm
  · obtain ⟨r, hr⟩ := h.regular.unify_total hb' hac'
    cases r with
    | none => exact hr
    | some θ =>
      -- the full values of `θ` solve the operands under `b` too
      have hu := h.regular.unified hb' hr
      have hp := h.regular.posed rfl hb'
      have hθ := hu.meets rfl hp
      have hacθ := hu.acyclic rfl hp hac'
      have hσ := hacθ.solution_meets_regular hθ
      obtain ⟨hs, he⟩ := hu.sound rfl hp hσ (hacθ.solves_solution hθ)
      obtain ⟨c, hc, -⟩ := (h.unified hb hfail).complete (h.posed rfl hb) hac hσ
        (fun v t ht => hs v t (hsub v t ht)) he
      cases hc

/-- Two free variables are bound one way or the other, where `?U` stands for `g(?T)`. -/
theorem orderFree_pair :
    let x : Item := .term (.app (.str "f") [.var (.named "V"), .var (.named "T")])
    let y : Item := .term (.app (.str "f") [.var (.named "W"), .var (.named "W")])
    let b : Bindings := ⟨[(.ofVariable (.named "U"), .term (.app (.str "g") [.var (.named "T")]))]⟩
    let θ := (b.bind (.named "V") (.var (.named "W"))).bind (.named "T") (.var (.named "W"))
    let θ' := (b.bind (.named "W") (.var (.named "V"))).bind (.named "T") (.var (.named "V"))
    b.Meets .definite ∧ b.Acyclic ∧ unify x y b = .ok (some θ) ∧ unify y x b = .ok (some θ') ∧
      Equivalent θ θ' := by
  intro x y b θ θ'
  obtain ⟨hb, hac⟩ : b.Meets .definite ∧ b.Acyclic := Bindings.meets_acyclic_ofPairs
    (fun v => if v == .named "U" then 1 else 0)
    [(.named "U", .app (.str "g") [.var (.named "T")])] (by decide) (by simp)
  have hxy : unify x y b = .ok (some θ) := rfl
  have hyx : unify y x b = .ok (some θ') := rfl
  have hagree := (unify_orderFree hb hac).symmetric x y (.terms rfl rfl)
  rw [hxy, hyx] at hagree
  cases hagree with
  | environments h => exact ⟨hb, hac, hxy, hyx, h⟩

/-- Bindings with a NaN tell the operands apart: where `?V` stands for `?W` and that for a NaN,
`?V` against `?W` succeeds, since the binding of `?V` is followed to `?W` itself, and `?W`
against `?V` fails, since both are followed to the NaN. -/
theorem asymmetric_under_nan :
    let x : Item := .term (.var (.named "V"))
    let y : Item := .term (.var (.named "W"))
    let b : Bindings := ⟨[(.ofVariable (.named "V"), .term (.var (.named "W"))),
      (.ofVariable (.named "W"), .term (.const (.float (.nan 0))))]⟩
    Matched .definite x y ∧ b.Meets .regular ∧ b.Acyclic ∧
      unify x y b = .ok (some b) ∧ unify y x b = .ok none := by
  intro x y b
  obtain ⟨hb, hac⟩ : b.Meets .regular ∧ b.Acyclic := Bindings.meets_acyclic_ofPairs
    (fun v => if v == .named "V" then 1 else 0)
    [(.named "V", .var (.named "W")), (.named "W", .const (.float (.nan 0)))]
    (by decide) (by simp [Variable.named])
  exact ⟨.terms rfl rfl, hb, hac, rfl, rfl⟩

end HornSearch
