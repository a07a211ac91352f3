/-
HornSearch/Proofs/StartingBindings.lean

Starting bindings act as a substitution.  A query under bindings and the query with these
bindings put in unify different terms, follow different chains and bind in different
directions; but all that the search asks of a unification is whether it succeeds, and of its
outcome what the literals in play stand for.  Two searches are related (`Interchangeable`) if
the literals in play, with the bindings put in, are instances of each other (`Specializes`,
both ways).

Unification keeps this, since it computes most general unifiers: solving one side gives an
assignment that solves the other side too (`Interchangeable.unify_forth`).  A renaming need
not be carried along; terms that are instances of each other are renamings of each other, and
this is used once, in the end (`Interchangeable.exists_renaming`).

So the two queries end together, with trees of the same shape and the same answers but for
the names of variables, or stopped at such goals (`prove_substituted`).  Which variables such a
goal shows may differ, and so may whether it has a text (`substituted_circle_unwritten`).
-/
import HornSearch.Proofs.Consequence
import HornSearch.Proofs.Lockstep

namespace HornSearch

variable {kb : KnowledgeBase} {ps : Pairing} {b b₁ b₂ c₁ c₂ : Bindings} {l₁ l₂ m₁ m₂ : Literal}
variable {σ τ θ : Assignment} {t : Term} {v : Variable}

/-! ### Instances that lead back -/

/-- An assignment that changes no term into another one keeps each variable of the term. -/
theorem Term.eq_var_of_alike (hτ : τ.Meets .regular) (ht : t.meets .regular = true)
    (h : Term.Alike t (t.instantiate τ)) (hv : v ∈ t.occurrences) : τ v = .var v := by
  induction t using Term.induct with
  | var w =>
    obtain rfl := List.mem_singleton.1 hv
    rw [Term.instantiate_var] at h
    exact (Term.alike_var_iff ht (hτ v ht)).1 h
  | const a => simp [Term.occurrences] at hv
  | app f ts ih =>
    obtain ⟨t, hmem, hvt⟩ := Term.mem_occurrences_app.1 hv
    obtain ⟨g, us, heq, -, hus⟩ := Term.alike_app_iff.1 h
    rw [Term.instantiate_app] at heq
    obtain ⟨-, rfl⟩ := Term.app.inj heq
    rw [List.forall₂_map_right_iff, List.forall₂_same] at hus
    exact ih t hmem ((Term.meets_app_iff.1 ht).2 t hmem) (hus t hmem) hvt

/-! ### Literals that the bindings leave alone -/

/-- Bindings that mention no variable of a literal leave it as it is. -/
theorem Bindings.Acyclic.instantiate_eq_self (hac : b.Acyclic) (h : b.Meets .regular)
    (ht : t.meets .regular = true) (hfree : ∀ v ∈ t.occurrences, ¬ b.Mentions v) :
    t.instantiate b.solution = t := by
  refine (Term.instantiate_congr fun v hv => ?_).trans (Term.instantiate_id t)
  refine hac.solution_of_unbound h (Term.var_of_mem_occurrences ht hv) ?_
  rintro ⟨u, hu⟩
  exact hfree v hv ⟨v, u, hu, .inl rfl⟩

/-- In particular they leave a fresh copy of a rule. -/
theorem FreshCopy.instantiate_eq_self {rule copy : Rule} {ls : List Literal}
    (h : FreshCopy rule copy ls b) (hac : b.Acyclic) (hb : b.Meets .regular)
    (hcopy : copy.meets .regular = true) {l : Literal} (hl : l ∈ copy.literals) :
    l.asTerm.instantiate b.solution = l.asTerm :=
  hac.instantiate_eq_self hb (Rule.meets_literals hcopy l hl) fun v hv =>
    h.bindings v (Rule.mem_occurrences_iff.2 ⟨l, hl, hv⟩)

/-! ### Literals that are instances of each other -/

/-- The assignment turns each first literal, under the first bindings, into the second one,
under the second bindings. -/
structure Specializes (τ : Assignment) (ps : Pairing) (b₁ b₂ : Bindings) : Prop where
  regular : τ.Meets .regular
  instances : ∀ l₁ l₂, (l₁, l₂) ∈ ps → Term.Alike (l₂.asTerm.instantiate b₂.solution)
    ((l₁.asTerm.instantiate b₁.solution).instantiate τ)

/-- The paired literals, under the bindings of their sides, are instances of each other. -/
structure Interchangeable (ps : Pairing) (b₁ b₂ : Bindings) : Prop where
  literals : ∀ l₁ l₂, (l₁, l₂) ∈ ps → l₁.meets .definite = true ∧ l₂.meets .definite = true ∧
    l₁.predicate = l₂.predicate
  definite : b₁.Meets .definite ∧ b₂.Meets .definite
  acyclic : b₁.Acyclic ∧ b₂.Acyclic
  forth : ∃ τ, Specializes τ ps b₁ b₂
  back : ∃ τ, Specializes τ (ps.map Prod.swap) b₂ b₁

/-- An assignment for the first side, by way of the instances and an assignment for the
second side. -/
noncomputable def viaInstances (b : Bindings) (τ θ : Assignment) : Assignment :=
  fun v => (b.solution v).instantiate fun w => (τ w).instantiate θ

theorem viaInstances_regular (hac : b.Acyclic) (h : b.Meets .regular) (hτ : τ.Meets .regular)
    (hθ : θ.Meets .regular) : (viaInstances b τ θ).Meets .regular := by
  have hρ : Assignment.Meets .regular fun w => (τ w).instantiate θ :=
    fun w hw => hθ.regular_instantiate (hτ w hw)
  exact fun v hv => hρ.regular_instantiate (hac.regular_solution h hv)

theorem solves_viaInstances (hac : b.Acyclic) (h : b.Meets .regular) (hτ : τ.Meets .regular)
    (hθ : θ.Meets .regular) : Solves (viaInstances b τ θ) b :=
  solves_solution_instantiate hac h fun w hw => hθ.regular_instantiate (hτ w hw)

namespace Interchangeable

theorem symm (h : Interchangeable ps b₁ b₂) : Interchangeable (ps.map Prod.swap) b₂ b₁ where
  literals l₂ l₁ hl := by
    obtain ⟨h₁, h₂, heq⟩ := h.literals l₁ l₂ ((List.mem_map_swap l₁ l₂ ps).1 hl)
    exact ⟨h₂, h₁, heq.symm⟩
  definite := h.definite.symm
  acyclic := h.acyclic.symm
  forth := h.back
  back := by
    rw [List.map_map, Prod.swap_swap_eq, List.map_id]
    exact h.forth

theorem regular (h : Interchangeable ps b₁ b₂) (hl : (l₁, l₂) ∈ ps) :
    l₁.asTerm.meets .regular = true ∧ l₂.asTerm.meets .regular = true := by
  obtain ⟨h₁, h₂, -⟩ := h.literals l₁ l₂ hl
  exact ⟨Literal.meets_regular_of_definite h₁, Literal.meets_regular_of_definite h₂⟩

theorem regular_instances (h : Interchangeable ps b₁ b₂) (hl : (l₁, l₂) ∈ ps) :
    (l₁.asTerm.instantiate b₁.solution).meets .regular = true ∧
      (l₂.asTerm.instantiate b₂.solution).meets .regular = true := by
  obtain ⟨hl₁, hl₂⟩ := h.regular hl
  have hsol₁ := h.acyclic.1.solution_meets_regular h.definite.1.regular
  have hsol₂ := h.acyclic.2.solution_meets_regular h.definite.2.regular
  exact ⟨hsol₁.regular_instantiate hl₁, hsol₂.regular_instantiate hl₂⟩

/-- What solves the second side gives the second literals what the first ones are given by
way of the instances. -/
theorem alike_viaInstances (h : Interchangeable ps b₁ b₂) (hτ : Specializes τ ps b₁ b₂)
    (hθ : θ.Meets .regular) (hsolves : Solves θ b₂) (hl : (l₁, l₂) ∈ ps) :
    Term.Alike (l₂.asTerm.instantiate θ) (l₁.asTerm.instantiate (viaInstances b₁ τ θ)) := by
  obtain ⟨hl₁, hl₂⟩ := h.regular hl
  obtain ⟨hfull₁, hfull₂⟩ := h.regular_instances hl
  have hvia : l₁.asTerm.instantiate (viaInstances b₁ τ θ) =
      ((l₁.asTerm.instantiate b₁.solution).instantiate τ).instantiate θ := by
    rw [Term.instantiate_instantiate, Term.instantiate_instantiate]
    rfl
  rw [hvia]
  refine Term.alike_trans (hθ.regular_instantiate hl₂) (hθ.regular_instantiate hfull₂)
    (hsolves.alike_instantiate_solution h.acyclic.2 h.definite.2.regular hθ hl₂) ?_
  exact Term.alike_instantiate hfull₂ (hτ.regular.regular_instantiate hfull₁) hθ
    (hτ.instances l₁ l₂ hl)

/-- Unifying first literals is to derive an answer to one equation. -/
theorem posed (h : Interchangeable ps b₁ b₂) (hl : (l₁, l₂) ∈ ps) (hm : (m₁, m₂) ∈ ps)
    {r₁ : Option Bindings} (h₁ : unifyLiterals l₁ m₁ b₁ = .ok r₁) :
    Posed .definite [(l₁.asTerm, m₁.asTerm)] b₁ ∧ Unified [(l₁.asTerm, m₁.asTerm)] b₁ r₁ := by
  obtain ⟨hl₁, -, -⟩ := h.literals _ _ hl
  obtain ⟨hm₁, -, -⟩ := h.literals _ _ hm
  refine ⟨.single (fun _ h => h) hl₁ hm₁ h.definite.1, ?_⟩
  exact unifyLiterals_unified (h.regular hl).1 (h.regular hm).1 h.definite.1.regular h₁

theorem joined (h : Interchangeable ps b₁ b₂) (hl : (l₁, l₂) ∈ ps) (hm : (m₁, m₂) ∈ ps)
    (h₁ : unifyLiterals l₁ m₁ b₁ = .ok (some c₁)) : c₁.Meets .definite ∧ c₁.Acyclic := by
  obtain ⟨hp, hu⟩ := h.posed hl hm h₁
  exact ⟨hu.meets rfl hp, hu.acyclic rfl hp.regular h.acyclic.1⟩

/-- What unifies the second literals unifies the first ones, by way of the instances, and
then these are as general as before. -/
theorem unify_forth (h : Interchangeable ps b₁ b₂) (hl : (l₁, l₂) ∈ ps) (hm : (m₁, m₂) ∈ ps)
    {r₁ : Option Bindings} (h₁ : unifyLiterals l₁ m₁ b₁ = .ok r₁)
    (h₂ : unifyLiterals l₂ m₂ b₂ = .ok (some c₂)) :
    ∃ c₁, r₁ = some c₁ ∧ ∃ τ, Specializes τ ps c₁ c₂ := by
  obtain ⟨τ, hτ⟩ := h.forth
  have hl' := (List.mem_map_swap l₁ l₂ ps).2 hl
  have hm' := (List.mem_map_swap m₁ m₂ ps).2 hm
  obtain ⟨hp₁, hu₁⟩ := h.posed hl hm h₁
  obtain ⟨hp₂, hu₂⟩ := h.symm.posed hl' hm' h₂
  obtain ⟨hc₂, hacc₂⟩ := h.symm.joined hl' hm' h₂
  have hθ : c₂.solution.Meets .regular := hacc₂.solution_meets_regular hc₂.regular
  obtain ⟨hsolves₂, hequal₂⟩ := hu₂.sound rfl hp₂.regular hθ (hacc₂.solves_solution hc₂.regular)
  -- by way of the instances, the solution of the second side solves the first one too, so
  -- that unification cannot fail there
  let σ := viaInstances b₁ τ c₂.solution
  have hσ : σ.Meets .regular := viaInstances_regular h.acyclic.1 hp₁.env.regular hτ.regular hθ
  have halike : ∀ k₁ k₂, (k₁, k₂) ∈ ps →
      Term.Alike (k₂.asTerm.instantiate c₂.solution) (k₁.asTerm.instantiate σ) :=
    fun k₁ k₂ hk => h.alike_viaInstances hτ hθ hsolves₂ hk
  have hequal₁ : Term.Alike (l₁.asTerm.instantiate σ) (m₁.asTerm.instantiate σ) := by
    have hl₂σ := hθ.regular_instantiate (h.regular hl).2
    have hl₁σ := hσ.regular_instantiate (h.regular hl).1
    refine Term.alike_trans hl₁σ hl₂σ (Term.alike_symm hl₂σ hl₁σ (halike l₁ l₂ hl)) ?_
    refine Term.alike_trans hl₂σ (hθ.regular_instantiate (h.regular hm).2) ?_ (halike m₁ m₂ hm)
    exact (equalizes_cons.1 hequal₂).1
  have hsolves₁ : Solves σ b₁ := solves_viaInstances h.acyclic.1 hp₁.env.regular hτ.regular hθ
  obtain ⟨c₁, rfl, hs₁⟩ := hu₁.complete hp₁ h.acyclic.1 hσ hsolves₁
    (equalizes_cons.2 ⟨hequal₁, by simp [Equalizes]⟩)
  obtain ⟨hc₁, hacc₁⟩ := h.joined hl hm h₁
  refine ⟨c₁, rfl, σ, hσ, fun k₁ k₂ hk => ?_⟩
  obtain ⟨hk₁, hk₂⟩ := h.regular hk
  refine Term.alike_trans (hθ.regular_instantiate hk₂) (hσ.regular_instantiate hk₁)
    (halike k₁ k₂ hk) ?_
  exact hs₁.alike_instantiate_solution hacc₁ hc₁.regular hσ hk₁

/-- **Unification keeps literals interchangeable**, or fails on both sides. -/
theorem unify (h : Interchangeable ps b₁ b₂) (hl : (l₁, l₂) ∈ ps) (hm : (m₁, m₂) ∈ ps)
    {r₁ r₂ : Option Bindings} (h₁ : unifyLiterals l₁ m₁ b₁ = .ok r₁)
    (h₂ : unifyLiterals l₂ m₂ b₂ = .ok r₂) : Option.Rel (Interchangeable ps) r₁ r₂ := by
  have hl' := (List.mem_map_swap l₁ l₂ ps).2 hl
  have hm' := (List.mem_map_swap m₁ m₂ ps).2 hm
  cases r₂ with
  | none =>
    cases r₁ with
    | none => exact .none
    | some c₁ =>
      obtain ⟨c₂, hnone, -⟩ := h.symm.unify_forth hl' hm' h₂ h₁
      cases hnone
  | some c₂ =>
    obtain ⟨c₁, rfl, hforth⟩ := h.unify_forth hl hm h₁ h₂
    obtain ⟨_, hsome, hback⟩ := h.symm.unify_forth hl' hm' h₂ h₁
    obtain rfl := Option.some.inj hsome
    obtain ⟨hmeets₁, hac₁⟩ := h.joined hl hm h₁
    obtain ⟨hmeets₂, hac₂⟩ := h.symm.joined hl' hm' h₂
    exact .some ⟨h.literals, ⟨hmeets₁, hmeets₂⟩, ⟨hac₁, hac₂⟩, hforth, hback⟩

open Classical in
/-- Fresh copies of one rule are as general as each other. -/
theorem copy_forth {rule copy₁ copy₂ : Rule} (h : Interchangeable ps b₁ b₂)
    (hrule : rule.meets .definite = true)
    (hcopy₁ : FreshCopy rule copy₁ (ps.map Prod.fst) b₁)
    (hcopy₂ : FreshCopy rule copy₂ (ps.map Prod.snd) b₂) :
    ∃ τ, Specializes τ (copy₁.pairs copy₂ ++ ps) b₁ b₂ := by
  obtain ⟨τ, hτ⟩ := h.forth
  obtain ⟨κ, rfl, -⟩ : copy₂.IsVariant copy₁ := hcopy₁.isVariant.symm.trans hcopy₂.isVariant
  have hmem : ∀ v ∈ copy₁.occurrences, κ v ∈ (copy₁.rename κ).occurrences :=
    fun v hv => Rule.mem_occurrences_rename.2 ⟨v, hv, rfl⟩
  let ρ : Assignment := fun v => if v ∈ copy₁.occurrences then .var (κ v) else τ v
  refine ⟨ρ, fun v hv => ?_, fun l₁ l₂ hl => ?_⟩
  · by_cases hvc : v ∈ copy₁.occurrences
    · simp only [ρ, if_pos hvc]
      exact hcopy₂.regular _ (hmem v hvc)
    · simp only [ρ, if_neg hvc]
      exact hτ.regular v hv
  rcases List.mem_append.1 hl with hl | hl
  · obtain ⟨hl₁, rfl⟩ := eq_of_mem_zip_map (f := Literal.rename κ) hl
    have hl₂ : l₁.rename κ ∈ (copy₁.rename κ).literals := List.mem_map_of_mem hl₁
    have hregular := Rule.meets_mono Criterion.definite_implies_regular hrule
    have hmeets₁ := hcopy₁.meets (fun _ h => h) hregular
    have hmeets₂ := hcopy₂.meets (fun _ h => h) hregular
    have hρ : l₁.asTerm.instantiate ρ = (l₁.rename κ).asTerm := by
      rw [Literal.asTerm_rename, Term.rename_eq_instantiate]
      exact Term.instantiate_congr fun v hv =>
        if_pos (Rule.mem_occurrences_iff.2 ⟨l₁, hl₁, hv⟩)
    rw [hcopy₁.instantiate_eq_self h.acyclic.1 h.definite.1.regular hmeets₁ hl₁,
      hcopy₂.instantiate_eq_self h.acyclic.2 h.definite.2.regular hmeets₂ hl₂, hρ]
    exact Term.alike_refl (Rule.meets_literals hmeets₂ _ hl₂)
  · -- no variable of the copy is left in the old literals
    have hold : (l₁.asTerm.instantiate b₁.solution).instantiate ρ =
        (l₁.asTerm.instantiate b₁.solution).instantiate τ := by
      refine Term.instantiate_congr fun v hv => if_neg ?_
      rw [← Literal.asTerm_instantiate, Literal.occurrences_asTerm] at hv
      obtain ⟨hvl | hvb, -⟩ := h.acyclic.1.mem_occurrences_literal h.definite.1.regular
        (h.regular hl).1 hv
      · exact hcopy₁.not_inUse (.inl ⟨l₁, List.mem_map.2 ⟨_, hl, rfl⟩, hvl⟩)
      · exact hcopy₁.not_inUse (.inr hvb)
    rw [hold]
    exact hτ.instances l₁ l₂ hl

/-- **Fresh copies of one rule** are interchangeable besides all else. -/
theorem copy {rule copy₁ copy₂ : Rule} (h : Interchangeable ps b₁ b₂)
    (hrule : rule.meets .definite = true)
    (hcopy₁ : FreshCopy rule copy₁ (ps.map Prod.fst) b₁)
    (hcopy₂ : FreshCopy rule copy₂ (ps.map Prod.snd) b₂) :
    Interchangeable (copy₁.pairs copy₂ ++ ps) b₁ b₂ where
  literals l₁ l₂ hl := by
    rcases List.mem_append.1 hl with hl | hl
    · obtain ⟨hl₁, hl₂⟩ := List.of_mem_zip hl
      refine ⟨Rule.meets_literals (hcopy₁.meets (fun _ h => h) hrule) l₁ hl₁,
        Rule.meets_literals (hcopy₂.meets (fun _ h => h) hrule) l₂ hl₂, ?_⟩
      obtain ⟨κ, rfl, -⟩ : copy₂.IsVariant copy₁ :=
        hcopy₁.isVariant.symm.trans hcopy₂.isVariant
      obtain ⟨-, rfl⟩ := eq_of_mem_zip_map (f := Literal.rename κ) hl
      rfl
    · exact h.literals l₁ l₂ hl
  definite := h.definite
  acyclic := h.acyclic
  forth := h.copy_forth hrule hcopy₁ hcopy₂
  back := by
    have hswap : (copy₁.pairs copy₂ ++ ps).map Prod.swap =
        copy₂.pairs copy₁ ++ ps.map Prod.swap := by
      rw [List.map_append, Rule.pairs, List.zip_swap]
      rfl
    rw [hswap]
    refine h.symm.copy_forth hrule ?_ ?_
    · rwa [List.map_map]
    · rwa [List.map_map]

/-- A fact stands for itself on both sides. -/
theorem specializes_fact {f : Literal} (hτ : Specializes τ ps b₁ b₂)
    (hf : f.meets .regular = true) (hground : f.isGround = true) :
    Specializes τ ((f, f) :: ps) b₁ b₂ where
  regular := hτ.regular
  instances l₁ l₂ hl := by
    rcases List.mem_cons.1 hl with heq | hl
    · obtain ⟨rfl, rfl⟩ := Prod.mk.inj heq
      have hself : ∀ σ, l₂.asTerm.instantiate σ = l₂.asTerm :=
        fun σ => Term.instantiate_of_isGround (t := l₂.asTerm) hground
      rw [hself, hself, hself]
      exact Term.alike_refl hf
    · exact hτ.instances l₁ l₂ hl

/-- **Simulation** of a knowledge base by itself. -/
theorem simulation (hkb : kb.Meets .definite) : Simulation kb kb Interchangeable where
  facts := rfl
  ground f hf := Literal.isGround_iff.1 (hkb.facts f hf).2
  rules := List.forall₂_same.2 fun _ _ => ⟨rfl, rfl⟩
  bindings h := ⟨h.definite.1.regular, h.definite.2.regular⟩
  pair h hl := ⟨(h.regular hl).1, (h.regular hl).2, (h.literals _ _ hl).2.2⟩
  fact := by
    intro ps b₁ b₂ f h hf
    obtain ⟨hmeets, hground⟩ := hkb.facts f hf
    have hregular := Literal.meets_regular_of_definite hmeets
    obtain ⟨τ, hτ⟩ := h.forth
    obtain ⟨τ', hτ'⟩ := h.back
    refine ⟨fun l₁ l₂ hl => ?_, h.definite, h.acyclic,
      ⟨τ, specializes_fact hτ hregular hground⟩, ⟨τ', specializes_fact hτ' hregular hground⟩⟩
    rcases List.mem_cons.1 hl with heq | hl
    · obtain ⟨rfl, rfl⟩ := Prod.mk.inj heq
      exact ⟨hmeets, hmeets, rfl⟩
    · exact h.literals l₁ l₂ hl
  copy h hrules hcopy₁ hcopy₂ := by
    obtain ⟨hrule, rfl⟩ := eq_of_mem_zip_self hrules
    exact h.copy (hkb.rules _ hrule) hcopy₁ hcopy₂
  unify h hl hm h₁ h₂ := h.unify hl hm h₁ h₂

/-! ### The renaming -/

/-- There and back, each variable of an instance is sent to a variable and is sent back. -/
theorem eq_var_of_specializes (h : Interchangeable ps b₁ b₂) (hτ : Specializes τ ps b₁ b₂)
    (hσ : Specializes σ (ps.map Prod.swap) b₂ b₁) (hl : (l₁, l₂) ∈ ps)
    (hv : v ∈ (l₁.asTerm.instantiate b₁.solution).occurrences) :
    v.isRegular = true ∧ ∃ w, τ v = .var w ∧ σ w = .var v := by
  obtain ⟨hfull₁, hfull₂⟩ := h.regular_instances hl
  have hτσ : Assignment.Meets .regular fun w => (τ w).instantiate σ :=
    fun w hw => hσ.regular.regular_instantiate (hτ.regular w hw)
  have halike : Term.Alike (l₁.asTerm.instantiate b₁.solution)
      ((l₁.asTerm.instantiate b₁.solution).instantiate fun w => (τ w).instantiate σ) := by
    rw [← Term.instantiate_instantiate]
    refine Term.alike_trans hfull₁ (hσ.regular.regular_instantiate hfull₂)
      (hσ.instances l₂ l₁ ((List.mem_map_swap l₁ l₂ ps).2 hl)) ?_
    exact Term.alike_instantiate hfull₂ (hτ.regular.regular_instantiate hfull₁) hσ.regular
      (hτ.instances l₁ l₂ hl)
  refine ⟨Term.var_of_mem_occurrences (p := .regular) hfull₁ hv, ?_⟩
  exact Term.eq_var_of_instantiate (Term.eq_var_of_alike hτσ hfull₁ halike hv)

/-- Literals that are instances of each other are renamings of each other, all by one
permutation. -/
theorem exists_renaming (h : Interchangeable ps b₁ b₂) : ∃ π : Equiv.Perm Variable, KeepsRegular π ∧
    ∀ l₁ l₂, (l₁, l₂) ∈ ps → ((l₁.instantiate b₁.solution).rename π ==
      l₂.instantiate b₂.solution) = true := by
  obtain ⟨τ, hτ⟩ := h.forth
  obtain ⟨σ, hσ⟩ := h.back
  let vs := ps.flatMap fun p => (p.1.asTerm.instantiate b₁.solution).occurrences
  have hmem : ∀ l₁ l₂, (l₁, l₂) ∈ ps → ∀ v ∈ (l₁.asTerm.instantiate b₁.solution).occurrences,
      v ∈ vs := fun l₁ l₂ hl v hv => List.mem_flatMap.2 ⟨_, hl, hv⟩
  have hback : ∀ v ∈ vs, v.isRegular = true ∧ ∃ w, τ v = .var w ∧ σ w = .var v := by
    intro v hv
    obtain ⟨⟨l₁, l₂⟩, hl, hvl⟩ := List.mem_flatMap.1 hv
    exact h.eq_var_of_specializes hτ hσ hl hvl
  have hchoose : ∀ v, ∃ w, v ∈ vs → τ v = .var w ∧ σ w = .var v := by
    intro v
    by_cases hv : v ∈ vs
    · obtain ⟨w, hw⟩ := (hback v hv).2
      exact ⟨w, fun _ => hw⟩
    · exact ⟨v, fun hv' => absurd hv' hv⟩
  choose ρ hρ using hchoose
  have hregular : ∀ v ∈ vs, (ρ v).isRegular = true := by
    intro v hv
    have hτv := hτ.regular v (hback v hv).1
    rwa [(hρ v hv).1] at hτv
  have hinjective : ∀ v ∈ vs, ∀ w ∈ vs, ρ v = ρ w → v = w := by
    intro v hv w hw heq
    have hσv := (hρ v hv).2
    rw [heq, (hρ w hw).2] at hσv
    exact (Term.var.inj hσv).symm
  obtain ⟨π, hπ, heq⟩ := exists_perm (fun v hv => (hback v hv).1) hregular hinjective
  refine ⟨π, hπ, fun l₁ l₂ hl => ?_⟩
  have hrename : ((l₁.instantiate b₁.solution).rename π).asTerm =
      (l₁.asTerm.instantiate b₁.solution).instantiate τ := by
    rw [Literal.asTerm_rename, Literal.asTerm_instantiate, Term.rename_eq_instantiate]
    refine Term.instantiate_congr fun v hv => ?_
    rw [heq v (hmem l₁ l₂ hl v hv), (hρ v (hmem l₁ l₂ hl v hv)).1]
  obtain ⟨hfull₁, hfull₂⟩ := h.regular_instances hl
  rw [Literal.beq_iff_alike, hrename, Literal.asTerm_instantiate]
  exact Term.alike_symm hfull₂ (hτ.regular.regular_instantiate hfull₁) (hτ.instances l₁ l₂ hl)

end Interchangeable

/-! ### Substituted queries -/

/-- One permutation turns all literals of the first tree, with its bindings put in, into those
of the second, and the answers too. -/
def SameAnswers (kb : KnowledgeBase) (tree₁ tree₂ : ProofTree) : Prop :=
  ∃ (π : Equiv.Perm Variable) (c₁ c₂ : Bindings) (nodes₁ nodes₂ : List ProofNode)
    (answers₁ answers₂ : List Literal), KeepsRegular π ∧ tree₁.proof = some (c₁, nodes₁) ∧
    tree₂.proof = some (c₂, nodes₂) ∧
    SameShape kb kb (fun l₁ l₂ => ((l₁.instantiate c₁.solution).rename π ==
      l₂.instantiate c₂.solution) = true) nodes₁ nodes₂ ∧
    tree₁.answer = .ok (some (answers₁.map .literal)) ∧
    tree₂.answer = .ok (some (answers₂.map .literal)) ∧
    List.Forall₂ (fun a₁ a₂ => (a₁.rename π == a₂) = true) answers₁ answers₂

/-- A permutation renames the one literal as one that equals the other. -/
def Literal.IsAlike (l₁ l₂ : Literal) : Prop :=
  ∃ π : Equiv.Perm Variable, KeepsRegular π ∧ (l₁.rename π == l₂) = true

section Queries

open Resolver

variable {settings : Settings} {query query' : Item} {goals goals' : List Literal}
variable {trail₁ trail₂ : Trail} {n₁ n₂ : Int}

/-- Proofs whose literals are instances of each other have the same answers. -/
theorem Interchangeable.sameAnswers {qs : Pairing} {nodes₁ nodes₂ : List ProofNode}
    (hg : ∀ g ∈ goals, g.meets .regular = true) (hg' : ∀ g ∈ goals', g.meets .regular = true)
    (hlength : goals.length = goals'.length) (hsub : goals.zip goals' ⊆ qs)
    (h : Interchangeable qs c₁ c₂)
    (hshape : SameShape kb kb (fun l₁ l₂ => (l₁, l₂) ∈ qs) nodes₁ nodes₂) :
    SameAnswers kb ⟨goals.map .literal, some (c₁, nodes₁)⟩
      ⟨goals'.map .literal, some (c₂, nodes₂)⟩ := by
  obtain ⟨π, hπ, hliterals⟩ := h.exists_renaming
  refine ⟨π, c₁, c₂, nodes₁, nodes₂, _, _, hπ, rfl, rfl, hshape.mono hliterals,
    answer_eq h.acyclic.1 h.definite.1.regular hg, answer_eq h.acyclic.2 h.definite.2.regular hg',
    ?_⟩
  rw [List.forall₂_map_left_iff, List.forall₂_map_right_iff]
  exact List.forall₂_iff_zip.2 ⟨hlength, fun {l₁ l₂} hl => hliterals l₁ l₂ (hsub hl)⟩

/-- Goals and the same goals with the bindings put in are instances of each other. -/
theorem interchangeable_start (hg : ∀ g ∈ goals, g.meets .definite = true)
    (hb : b.Meets .definite) (hac : b.Acyclic) :
    Interchangeable (goals.zip (goals.map (Literal.instantiate b.solution))) b .empty := by
  have hempty : ∀ l : Literal, l.meets .definite = true →
      l.asTerm.instantiate Bindings.empty.solution = l.asTerm := by
    refine fun l hl => Bindings.acyclic_empty.instantiate_eq_self Bindings.meets_empty
      (Literal.meets_regular_of_definite hl) fun v _ => ?_
    rintro ⟨w, t, ht, -⟩
    cases ht
  have hfull : ∀ g ∈ goals, (g.instantiate b.solution).meets .definite = true := fun g hmem =>
    Literal.meets_instantiate (hg g hmem) fun v hv =>
      hac.definite_solution hb (Literal.var_of_mem_occurrences (p := .definite) (hg g hmem) hv)
  -- both sides stand for the same, so that each is the other as it is
  have hsame : ∀ l₁ l₂, (l₁, l₂) ∈ goals.zip (goals.map (Literal.instantiate b.solution)) →
      l₁ ∈ goals ∧ l₂ = l₁.instantiate b.solution ∧
        l₂.asTerm.instantiate Bindings.empty.solution = l₁.asTerm.instantiate b.solution ∧
        (l₁.asTerm.instantiate b.solution).meets .regular = true := by
    intro l₁ l₂ hl
    obtain ⟨hl₁, rfl⟩ := eq_of_mem_zip_map hl
    refine ⟨hl₁, rfl, ?_, ?_⟩
    · rw [hempty _ (hfull l₁ hl₁), Literal.asTerm_instantiate]
    · rw [← Literal.asTerm_instantiate]
      exact Literal.meets_regular_of_definite (hfull l₁ hl₁)
  refine ⟨?_, ⟨hb, Bindings.meets_empty⟩, ⟨hac, Bindings.acyclic_empty⟩,
    ⟨.var, fun _ hv => hv, ?_⟩, ⟨.var, fun _ hv => hv, ?_⟩⟩
  · intro l₁ l₂ hl
    obtain ⟨hl₁, rfl, -⟩ := hsame l₁ l₂ hl
    exact ⟨hg l₁ hl₁, hfull l₁ hl₁, rfl⟩
  · intro l₁ l₂ hl
    obtain ⟨-, -, heq, hregular⟩ := hsame l₁ l₂ hl
    rw [heq, Term.instantiate_id]
    exact Term.alike_refl hregular
  · intro l₂ l₁ hl
    obtain ⟨-, -, heq, hregular⟩ := hsame l₁ l₂ ((List.mem_map_swap l₁ l₂ _).1 hl)
    rw [heq, Term.instantiate_id]
    exact Term.alike_refl hregular

/-- **Starting bindings act as a substitution**: a query under bindings, and the query with
the bindings put in, end together and come to the same, up to a renaming. -/
theorem prove_substituted (h : WellPosed kb query goals b) (hkb : kb.Meets .definite)
    (hg : ∀ g ∈ goals, g.meets .definite = true) (hb : b.Meets .definite)
    {items : List Item} (hitems : (goals.map Item.literal).mapM b.substitute = .ok items)
    (hquery' : goalsOf query' = .ok items)
    (htrail₁ : trail₁.source = ⟨.int n₁⟩) (htrail₂ : trail₂.source = ⟨.int n₂⟩) :
    ((∃ r₁, Ends kb settings query b trail₁ r₁) ↔
      ∃ r₂, Ends kb settings query' .empty trail₂ r₂) ∧
    ∀ r₁ r₂, Ends kb settings query b trail₁ r₁ → Ends kb settings query' .empty trail₂ r₂ →
      SameOutcome (SameAnswers kb) Literal.IsAlike r₁.1 r₂.1 := by
  obtain ⟨hg', hb'⟩ := h.regular
  have hitems' := mapM_substitute_eq h.acyclic hb' hg'
  obtain rfl := Except.ok.inj (hitems.symm.trans hitems')
  have hlegible : ∀ g ∈ goals.map (Literal.instantiate b.solution), g.meets .legible = true :=
    List.forall_mem_map.2 fun g hmem => Literal.meets_solution Criterion.legible_implies_regular
      (h.goals g hmem) h.start h.acyclic
  have h' : WellPosed kb query' (goals.map (Literal.instantiate b.solution)) .empty :=
    ⟨h.kb, hquery', hlegible, Bindings.meets_empty, Bindings.acyclic_empty⟩
  have hlength : goals.length = (goals.map (Literal.instantiate b.solution)).length :=
    (List.length_map _).symm
  refine ends_together (Interchangeable.simulation hkb) h h' rfl hlength
    (interchangeable_start hg hb h.acyclic) htrail₁ htrail₂ ?_ ?_
  · intro qs c₁ c₂ nodes₁ nodes₂ hsub hinterchangeable hshape
    exact hinterchangeable.sameAnswers hg' h'.regular.1 hlength hsub hshape
  · intro qs c₁ c₂ goal₁ goal₂ hinterchangeable hgoal
    obtain ⟨π, hπ, hliterals⟩ := hinterchangeable.exists_renaming
    exact ⟨π, hπ, hliterals goal₁ goal₂ hgoal⟩

end Queries

open Family in
/-- The descendants of the ancestor that the bindings give, and of the one that the goals
name, are found alike. -/
theorem substituted_family :
    ∃ r₁ r₂, Resolver.Ends clauses {} (.list (Family.goals.map .literal)) start
        { source := ⟨.int 5⟩ } r₁ ∧
      Resolver.Ends clauses {} (.list [.literal (ancestor (person "tom") (someone "Y")),
        .literal (parent (someone "Z") (someone "Y"))]) .empty { source := {} } r₂ ∧
      (∃ tree, r₁.1 = .proved tree ∧ tree.isValid = true) ∧
      SameOutcome (SameAnswers clauses) Literal.IsAlike r₁.1 r₂.1 := by
  obtain ⟨tree, trail, hends₁, hvalid⟩ := Family.exists_ends
  have hstart : start.Meets .definite :=
    ⟨List.forall_mem_singleton.2 ⟨_, _, rfl, rfl, rfl⟩, List.nodup_singleton _⟩
  have hitems : (Family.goals.map Item.literal).mapM start.substitute =
      .ok [.literal (ancestor (person "tom") (someone "Y")),
        .literal (parent (someone "Z") (someone "Y"))] := by
    cbv
  have hquery' : Resolver.goalsOf (.list [.literal (ancestor (person "tom") (someone "Y")),
      .literal (parent (someone "Z") (someone "Y"))]) = .ok _ := rfl
  let trail₁ : Trail := { source := ⟨.int 5⟩ }
  let trail₂ : Trail := { source := {} }
  have htrail₁ : trail₁.source = ⟨.int 5⟩ := rfl
  have htrail₂ : trail₂.source = ⟨.int 1⟩ := rfl
  obtain ⟨hiff, hsame⟩ := prove_substituted wellPosed ⟨by decide, by decide⟩ (by decide) hstart
    hitems hquery' htrail₁ htrail₂
  obtain ⟨r₂, hends₂⟩ := hiff.1 ⟨_, hends₁⟩
  exact ⟨_, r₂, hends₁, hends₂, ⟨tree, rfl, hvalid⟩, hsame _ _ hends₁ hends₂⟩

open Roundabout Numeral in
/-- A question about a variable that is bound to another one, and the question about that one.
The limit stops both.  Under the bindings it is the variable of the question that is shown, whose
serial is just short enough; without them it is the one of a copy, whose serial is too long to be
written. -/
theorem substituted_circle_unwritten :
    (∃ r₁ N goal, Resolver.Ends (clauses (.var (.named "X"))) { maxDepth := some 1 }
      (.literal (around (.var (.named "Z"))))
      ⟨[(.ofVariable (.named "Z"), .term (.var ⟨.str "V", .int (huge - 1)⟩))]⟩
      { source := {} } r₁ ∧ r₁.1 = .stopped (.depthLimit N goal)) ∧
    ∃ r₂, Resolver.Ends (clauses (.var (.named "X"))) { maxDepth := some 1 }
      (.literal (around (.var ⟨.str "V", .int (huge - 1)⟩))) .empty { source := {} } r₂ ∧
        r₂.1 = .stopped (.numeral .tooLong) := by
  obtain ⟨N, goal, hfirst⟩ : ∃ N goal, (Resolver.prove (clauses (.var (.named "X")))
      { maxDepth := some 1 } 3 (.literal (around (.var (.named "Z"))))
      ⟨[(.ofVariable (.named "Z"), .term (.var ⟨.str "V", .int (huge - 1)⟩))]⟩
      { source := {} }).1 = .stopped (.depthLimit N goal) :=
    Outcome.isDepthLimit_iff.1 (by decide +kernel)
  have hsecond : (Resolver.prove (clauses (.var (.named "X"))) { maxDepth := some 1 } 3
      (.literal (around (.var ⟨.str "V", .int (huge - 1)⟩))) .empty { source := {} }).1 =
        .stopped (.numeral .tooLong) :=
    Outcome.isTooLong_iff.1 (by decide +kernel)
  obtain ⟨r₁, hends₁, hr₁⟩ := Resolver.exists_ends_of_stopped hfirst (by simp)
  exact ⟨⟨r₁, N, goal, hends₁, hr₁⟩, Resolver.exists_ends_of_stopped hsecond (by simp)⟩

end HornSearch
