/-
HornSearch/Proofs/Growth.lean

What unification adds to an environment.  An environment that is answered starts with the
bindings that there were, in their order.  What is added binds unbound variables, and all its
variables are reached from the operands (`Bindings.ReachedFrom`): equations that shun a
variable spare it, so a variable that was not reached is neither bound nor built in.

Nothing is added exactly if the operands were equal before (`Unified.eq_of_equal`).  A binding
would be made between an unbound variable and a term with another full value, so that under
the environment the two sides were different; the only full value that is equal to an unbound
variable is that variable, and a variable that leads to it is followed and not bound.

`Growth` collects what is wanted of an answer, and `unify_grows` is the main result.
-/
import HornSearch.Proofs.Locality
import HornSearch.Proofs.MostGeneral

namespace HornSearch

variable {b c θ : Bindings} {x y : Item} {v w : Variable} {t u : Term}

/-- The variable is reached from a variable of the operands. -/
def Bindings.ReachedFrom (b : Bindings) (x y : Item) (v : Variable) : Prop :=
  ∃ u, (u ∈ x.operand.occurrences ∨ u ∈ y.operand.occurrences) ∧ b.Reaches u v

/-- What is wanted of an environment `θ` that unifying `x` and `y` under `b` answers. -/
structure Growth (x y : Item) (b θ : Bindings) : Prop where
  /-- The old bindings come first, in their order and with their values.  What is added binds
  unbound variables, and all its variables are reached from the operands. -/
  added : ∃ new, θ.entries = b.entries ++ new ∧ ∀ e ∈ new, ∃ v t,
    e = (Item.ofVariable v, Item.term t) ∧ ¬ b.IsBound v ∧ b.ReachedFrom x y v ∧
      ∀ w ∈ t.occurrences, b.ReachedFrom x y w
  /-- Nothing is added if the operands were equal before. -/
  same_of_equal : b.Meets .regular → List.Forall₂ (EqualUnder b) x.members y.members → θ = b
  /-- If nothing is added, the operands were equal before. -/
  equal_of_same : b.Meets .definite → θ = b → List.Forall₂ (EqualUnder b) x.members y.members
  /-- Nothing is added any more to environments with the bindings of `θ`. -/
  again : ∀ θ' : Bindings, θ'.Meets .definite → θ'.Acyclic →
    (∀ v t, θ.Binds v t → θ'.Binds v t) → unify x y θ' = .ok (some θ')

/-! ### What is added -/

theorem Bindings.shuns_of_not_reached (h : ¬ b.ReachedFrom x y v) :
    b.Shuns [v] x.operand ∧ b.Shuns [v] y.operand := by
  constructor
  · rintro u hu w huw hw
    obtain rfl := List.mem_singleton.1 hw
    exact h ⟨u, .inl hu, huw⟩
  · rintro u hu w huw hw
    obtain rfl := List.mem_singleton.1 hw
    exact h ⟨u, .inr hu, huw⟩

/-- A derivation binds nothing but what is reached, to terms of what is reached. -/
theorem Unified.reached (h : Unified [(x.operand, y.operand)] b (some c))
    (hnew : c.Binds v t) (hv : ¬ b.IsBound v) :
    b.ReachedFrom x y v ∧ ∀ w ∈ t.occurrences, b.ReachedFrom x y w := by
  have hspares : ∀ w, ¬ b.ReachedFrom x y w → Spares [w] b c := fun w hw =>
    h.spares rfl (List.forall_mem_singleton.2 (Bindings.shuns_of_not_reached hw))
  have hreached : b.ReachedFrom x y v := by
    by_contra hnot
    exact (hspares v hnot).unbound v (by simp) hv ⟨t, hnew⟩
  refine ⟨hreached, fun w hw => ?_⟩
  by_contra hnot
  -- `v` is unbound before and therefore shuns every other variable, but later it leads to `w`
  have hshuns : b.Shuns [w] (.var v) := by
    intro u hu z hz hzw
    obtain rfl := List.mem_singleton.1 hu
    obtain rfl := List.mem_singleton.1 hzw
    rcases Relation.ReflTransGen.cases_head hz with rfl | ⟨-, ⟨s, hs, -⟩, -⟩
    · exact hnot hreached
    · exact hv ⟨s, hs⟩
  exact (hspares w hnot).shuns _ hshuns v (by simp [Term.occurrences]) w
    (.single ⟨t, hnew, hw⟩) (by simp)

/-- What follows the old bindings binds variables that were unbound. -/
theorem Bindings.Meets.unbound_of_append {p : Criterion} (hc : c.Meets p)
    {new : List (Item × Item)} (h : c.entries = b.entries ++ new)
    (hv : (Item.ofVariable v, Item.term t) ∈ new) : ¬ b.IsBound v := by
  rintro ⟨u, hu⟩
  have hnodup := hc.nodup
  rw [keys, h, List.map_append] at hnodup
  exact List.disjoint_of_nodup_append hnodup (List.mem_map.2 ⟨_, hu, rfl⟩)
    (List.mem_map.2 ⟨_, hv, rfl⟩)

/-- What longer bindings add is a table of variables that were unbound, each of them once. -/
theorem Bindings.Meets.exists_added {p : Criterion} (hc : c.Meets p)
    (h : b.entries <+: c.entries) :
    ∃ new : List (Variable × Term), c.entries = b.entries ++ (ofPairs new).entries ∧
      (new.map Prod.fst).Nodup ∧ ∀ v t, (v, t) ∈ new ↔ c.Binds v t ∧ ¬ b.IsBound v := by
  obtain ⟨rest, hrest⟩ := h
  have htyped : ∀ e ∈ rest, ∃ v t, e = (Item.ofVariable v, Item.term t) := by
    intro e he
    obtain ⟨v, t, rfl, -, -⟩ := hc.typed e (hrest ▸ List.mem_append_right _ he)
    exact ⟨v, t, rfl⟩
  obtain ⟨new, rfl⟩ := exists_ofPairs htyped
  refine ⟨new, hrest.symm, ?_, fun v t => ⟨fun he => ?_, fun ⟨ht, hv⟩ => ?_⟩⟩
  · have hnodup := hc.nodup
    rw [keys, ← hrest, List.map_append] at hnodup
    have hkeys : (ofPairs new).keys.Nodup := hnodup.of_append_right
    rw [keys_ofPairs] at hkeys
    exact hkeys.of_map Item.ofVariable
  · have hmem := binds_ofPairs_iff.2 he
    refine ⟨?_, hc.unbound_of_append hrest.symm hmem⟩
    rw [Binds, ← hrest]
    exact List.mem_append_right _ hmem
  · rw [Binds, ← hrest] at ht
    exact binds_ofPairs_iff.1 ((List.mem_append.1 ht).resolve_left fun ht => hv ⟨t, ht⟩)

/-! ### When nothing is added -/

/-- **Equations that hold already** add nothing. -/
theorem Unified.eq_of_equal {es : List Equation} {r : Option Bindings} (h : Unified es b r)
    (hr : r = some c) (hp : Posed .regular es b) (hac : b.Acyclic)
    (he : Equalizes b.solution es) : c = b := by
  induction h with
  | done => exact (Option.some.inj hr).symm
  | symbol _ _ ih | same _ ih => exact ih hr hp.tail hac (equalizes_cons.1 he).2
  | turn _ _ ih =>
    obtain ⟨htw, he⟩ := equalizes_cons.1 he
    have hσ := hac.solution_meets_regular hp.env
    refine ih hr hp.turn hac (equalizes_cons.2 ⟨?_, he⟩)
    exact Term.alike_symm (hσ.regular_instantiate hp.left) (hσ.regular_instantiate hp.right) htw
  | follow _ hu _ ih =>
    obtain ⟨hvt, he⟩ := equalizes_cons.1 he
    have hσ := hac.solution_meets_regular hp.env
    refine ih hr (hp.follow hu) hac (equalizes_cons.2 ⟨?_, he⟩)
    rw [Term.instantiate_var, hac.solution_of_binds hp.env hu] at hvt
    exact Term.alike_symm (hσ.regular_instantiate (hp.env.meets hu))
      (hσ.regular_instantiate hp.right) hvt
  | @followRight v w u es b r _ _ hu _ ih =>
    obtain ⟨hvw, he⟩ := equalizes_cons.1 he
    refine ih hr (hp.followRight hu) hac (equalizes_cons.2 ⟨?_, he⟩)
    rwa [Term.instantiate_var w, hac.solution_of_binds hp.env hu] at hvw
  | @bind v t es b r hne hv hw _ _ ih =>
    obtain ⟨hvt, -⟩ := equalizes_cons.1 he
    have hσ := hac.solution_meets_regular hp.env
    -- only `v` itself has a full value like `v`
    rw [Term.instantiate_var, hac.solution_of_unbound hp.env hp.isRegular hv,
      Term.alike_var_iff hp.isRegular (hσ.regular_instantiate hp.right)] at hvt
    obtain ⟨w, rfl, hwv⟩ := Term.eq_var_of_instantiate hvt
    rw [hac.solution_of_unbound hp.env hp.turn.isRegular (hw w rfl)] at hwv
    exact absurd hwv hne
  | decompose hfg hl _ ih =>
    obtain ⟨hfg, he⟩ := equalizes_cons.1 he
    refine ih hr hp.decompose hac (equalizes_append.2 ⟨(equalizes_zip hl).2 ?_, he⟩)
    rw [Term.instantiate_app, Term.instantiate_app, Term.alike_app_iff] at hfg
    obtain ⟨g, us, hg, -, hus⟩ := hfg
    obtain ⟨rfl, rfl⟩ := Term.app.inj hg
    exact hus
  | occurs | clash => cases hr

/-- What makes the operands equal makes them alike as one term. -/
theorem Matched.alike_of_unifies {p : Criterion} {σ : Assignment} (h : Matched p x y)
    (hσ : Unifies σ x y) : Term.Alike (x.operand.instantiate σ) (y.operand.instantiate σ) := by
  have hterm : ∀ t u : Term, (Item.term t == .term u) = true → Term.Alike t u := by
    intro t u htu
    change Item.equals (.term t) (.term u) = true at htu
    rw [Item.equals] at htu
    exact Term.alike_of_beq htu
  cases h with
  | terms ht hu => exact hterm _ _ (List.forall₂_cons.1 hσ).1
  | @literals l m hl hm =>
    have hlm := Item.literal_beq_iff_alike.1 (List.forall₂_cons.1 hσ).1
    rwa [Literal.asTerm_instantiate, Literal.asTerm_instantiate] at hlm
  | sequences hx hy hts hus =>
    rw [Unifies, hx.members_eq, hy.members_eq, List.forall₂_map_left_iff,
      List.forall₂_map_right_iff] at hσ
    rw [hx.operand_eq, hy.operand_eq, Term.instantiate_app, Term.instantiate_app,
      Term.alike_app_iff]
    refine ⟨_, _, rfl, by simp, ?_⟩
    rw [List.forall₂_map_left_iff, List.forall₂_map_right_iff]
    exact hσ.imp fun t u => hterm _ _

/-- Operands that are equal under the environment add nothing to it. -/
theorem Matched.eq_of_equal (h : Matched .regular x y) (hb : b.Meets .regular) (hac : b.Acyclic)
    (hθ : unify x y b = .ok (some θ))
    (heq : List.Forall₂ (EqualUnder b) x.members y.members) : θ = b := by
  have halike := h.alike_of_unifies ((h.equalUnder_iff hb hac).1 heq)
  refine (h.unified hb hθ).eq_of_equal rfl (h.posed rfl hb) hac ?_
  exact equalizes_cons.2 ⟨halike, by simp [Equalizes]⟩

/-- **Unification only adds what is needed**: at the end, of what is reached, and nothing where
the operands are equal already. -/
theorem unify_grows (h : Matched .definite x y) (hb : b.Meets .loose) (hac : b.Acyclic)
    (hθ : unify x y b = .ok (some θ)) : Growth x y b θ := by
  have hu := h.loose.unified hb hθ
  have hm := hu.meets rfl (h.loose.posed rfl hb)
  refine ⟨?_, fun hb' => h.regular.eq_of_equal hb' hac hθ, ?_, fun θ' hm' hac' hsub => ?_⟩
  · obtain ⟨new, hnew⟩ := hu.isPrefix rfl
    refine ⟨new, hnew.symm, fun e he => ?_⟩
    have hmem : e ∈ θ.entries := hnew ▸ List.mem_append_right _ he
    obtain ⟨v, t, rfl, -⟩ := hm.typed e hmem
    have hv := hm.unbound_of_append hnew.symm he
    exact ⟨v, t, rfl, hv, hu.reached hmem hv⟩
  · rintro hb' rfl
    exact (unify_mostGeneral h hb' hac).equal _ hθ
  · -- the full values of `θ'` solve `θ`, and so they make the operands equal
    have hb' : b.Meets .definite := hb.of_binds fun v t ht =>
      hm'.meets (hsub v t ((hu.isPrefix rfl).subset ht))
    have hσ := hac'.solution_meets_regular hm'.regular
    have hsolves := hac'.solves_solution hm'.regular
    obtain ⟨-, he⟩ := hu.sound rfl (h.posed rfl hb').regular hσ
      fun v t ht => hsolves v t (hsub v t ht)
    obtain ⟨r, hr⟩ := h.unify_total hm' hac'
    have hu' := h.unified hm' hr
    have hp' := h.posed rfl hm'
    obtain ⟨c, rfl, -⟩ := hu'.complete hp' hac' hσ hsolves he
    rw [hr, hu'.eq_of_equal rfl hp'.regular hac' he]

/-- `f(?X, ?Y)` against `f(?Y, g(?Z))`, where `?Z` stands for `?X1` and `?A` for `?B`: the last
binding is out of reach. -/
theorem growth_chain :
    let x : Item := .term (.app (.str "f") [.var (.named "X"), .var (.named "Y")])
    let y : Item := .term (.app (.str "f")
      [.var (.named "Y"), .app (.str "g") [.var (.named "Z")]])
    let b : Bindings := ⟨[(.ofVariable (.named "Z"), .term (.var (.named "X1"))),
      (.ofVariable (.named "A"), .term (.var (.named "B")))]⟩
    Matched .definite x y ∧ b.Meets .loose ∧ b.Acyclic ∧
      ∃ θ, unify x y b = .ok (some θ) ∧ θ.size = 4 ∧ Growth x y b θ := by
  intro x y b
  have hxy : Matched .definite x y := .terms rfl rfl
  -- `?Z` comes before `?X1`, and `?A` before `?B`
  obtain ⟨hb, hac⟩ : b.Meets .loose ∧ b.Acyclic := Bindings.meets_acyclic_ofPairs
    (fun v => if v == .named "Z" || v == .named "A" then 1 else 0)
    [(.named "Z", .var (.named "X1")), (.named "A", .var (.named "B"))]
    (by decide) (by simp [Variable.named])
  exact ⟨hxy, hb, hac, _, rfl, rfl, unify_grows hxy hb hac rfl⟩

/-- A longer environment with a NaN may separate what was equal before: `?W` against `?V` adds
nothing where `?V` stands for `?W`, and fails where `?W` stands for a NaN besides. -/
theorem separated_by_nan :
    let x : Item := .term (.var (.named "W"))
    let y : Item := .term (.var (.named "V"))
    let b : Bindings := ⟨[(.ofVariable (.named "V"), .term (.var (.named "W")))]⟩
    let θ' := b.bind (.named "W") (.const (.float (.nan 0)))
    Matched .definite x y ∧ b.Meets .definite ∧ b.Acyclic ∧ unify x y b = .ok (some b) ∧
      θ'.Meets .regular ∧ θ'.Acyclic ∧ (∀ v t, b.Binds v t → θ'.Binds v t) ∧
      unify x y θ' = .ok none := by
  intro x y b θ'
  obtain ⟨hb, hac⟩ : b.Meets .definite ∧ b.Acyclic := Bindings.meets_acyclic_ofPairs
    (fun v => if v == .named "V" then 1 else 0) [(.named "V", .var (.named "W"))]
    (by decide) (by simp)
  have hfree : ¬ b.IsBound (.named "W") := by
    rintro ⟨t, ht⟩
    simpa [Variable.named, Item.ofVariable] using List.mem_singleton.1 ht
  refine ⟨.terms rfl rfl, hb, hac, rfl, hb.regular.bind rfl rfl hfree, ?_, ?_, rfl⟩
  · exact hac.bind hb.regular hfree rfl (by simp [Term.occurrences])
  · exact fun v t ht => Bindings.binds_bind_iff.2 (.inl ht)

end HornSearch
