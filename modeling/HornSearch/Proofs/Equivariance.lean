/-
HornSearch/Proofs/Equivariance.lean

Unification does not depend on the names of variables.  A derivation stays one when all
its variables are renamed (`Unified.rename`), and the rules of derivations leave no
choice (`Unified.unique`); since the operations always have an answer, renamed operands
have the renamed answer, binding by binding (`Matched.unify_rename`).

A variable that only one side of an equation has is in the environment that the
equation comes to (`Unified.mentions`).  So if two literals share no variable, then all
their variables are in the environment that unifies them.
-/
import HornSearch.Proofs.MostGeneral
import HornSearch.Proofs.Renamings

namespace HornSearch

variable {p : Criterion} {ρ : Variable → Variable} {b c : Bindings} {es : List Equation}
variable {r r' : Option Bindings} {t u : Term}

/-- Renames the variables on both sides. -/
def Equation.rename (ρ : Variable → Variable) (e : Equation) : Equation :=
  (e.1.rename ρ, e.2.rename ρ)

/-! ### Renamed derivations -/

theorem Clash.rename (h : Clash t u) : Clash (t.rename ρ) (u.rename ρ) := by
  cases t with
  | var v => exact h.elim
  | const a =>
    cases u with
    | var v => exact h.elim
    | const c =>
      rw [Term.rename_const, Term.rename_const]
      exact h
    | app g us =>
      rw [Term.rename_const, Term.rename_app]
      exact h
  | app f ts =>
    cases u with
    | var v => exact h.elim
    | const c =>
      rw [Term.rename_const, Term.rename_app]
      exact h
    | app g us =>
      rw [Term.rename_app, Term.rename_app]
      show f.equals g = false ∨ _
      rw [List.length_map, List.length_map]
      exact h

namespace Unified

/-- The occurs check does not depend on names. -/
theorem occursIn_rename [p.Named] (hac : b.Acyclic) (hb : b.Meets p) (hρ : IsRenaming ρ)
    {v : Variable} (hv : v.isRegular = true) (ht : t.meets p = true) :
    occursIn (.ofVariable (ρ v)) (.term (t.rename ρ)) (b.rename ρ) =
      occursIn (.ofVariable v) (.term t) b := by
  have hb' : (b.rename ρ).Meets .loose := hb.loose.rename hρ hρ.regular
  have ht' : (t.rename ρ).meets .loose = true := Term.meets_rename hρ.regular (Term.meets_loose ht)
  -- the variable is looked for in the full value, which is renamed with it
  have hfull : (t.rename ρ).instantiate (b.rename ρ).solution =
      (t.instantiate b.solution).rename ρ := by
    rw [Term.rename_instantiate, Term.instantiate_rename]
    apply Term.instantiate_congr
    intro w hw
    exact hac.solution_rename hb hρ (Term.isRegular_of_mem_occurrences ht hw)
  refine occursIn_congr hac hb hv ht (hac.rename hρ.injective) hb' (hρ.regular v hv) ht' ?_
  rw [hfull, Term.mem_occurrences_rename]
  constructor
  · rintro ⟨w, hw, hvw⟩
    rwa [hρ.injective hvw]
  · intro hv
    exact ⟨v, hv, rfl⟩

/-- **A renamed derivation is a derivation.** -/
theorem rename (h : Unified es b r) (hp : Posed p es b) (hac : b.Acyclic)
    (hρ : IsRenaming ρ) :
    Unified (es.map (Equation.rename ρ)) (b.rename ρ) (r.map (Bindings.rename ρ)) := by
  have := hp.named
  have hne : ∀ {v t}, t ≠ Term.var v → t.rename ρ ≠ .var (ρ v) := by
    intro v t hne heq
    obtain ⟨w, rfl, hw⟩ := Term.eq_var_of_rename heq
    rw [hρ.injective hw] at hne
    exact hne rfl
  induction h with
  | done => exact .done
  | symbol hac' _ ih =>
    rw [List.map_cons, Equation.rename, Term.rename_const, Term.rename_const]
    exact .symbol hac' (ih hp.tail hac)
  | @turn t w es b r ht _ ih =>
    have h := ih hp.turn hac
    rw [List.map_cons, Equation.rename, Term.rename_var] at h ⊢
    refine .turn ?_ h
    intro v hv
    obtain ⟨x, rfl, -⟩ := Term.eq_var_of_rename hv
    exact ht x rfl
  | same _ ih =>
    rw [List.map_cons, Equation.rename, Term.rename_var]
    exact .same (ih hp.tail hac)
  | follow ht hu _ ih =>
    rw [List.map_cons, Equation.rename, Term.rename_var]
    exact .follow (hne ht) hu.rename (ih (hp.follow hu) hac)
  | followRight hvw hv hu _ ih =>
    have h := ih (hp.followRight hu) hac
    rw [List.map_cons, Equation.rename, Term.rename_var] at h ⊢
    rw [Term.rename_var]
    exact .followRight (hρ.injective.ne hvw)
      (mt (Bindings.isBound_rename_iff hρ.injective).1 hv) hu.rename h
  | @bind v t es b r ht hv hw hocc _ ih =>
    have h := ih (hp.bind hv) (hac.bind hp.env hv hp.right (not_occurs_of_bind hac hp ht hw hocc))
    rw [Bindings.rename_bind] at h
    rw [List.map_cons, Equation.rename, Term.rename_var]
    refine .bind (hne ht) (mt (Bindings.isBound_rename_iff hρ.injective).1 hv) ?_ ?_ h
    · intro x hx
      obtain ⟨w, rfl, rfl⟩ := Term.eq_var_of_rename hx
      exact mt (Bindings.isBound_rename_iff hρ.injective).1 (hw w rfl)
    · intro f us hus
      rw [occursIn_rename hac hp.env hρ hp.isRegular hp.right]
      -- the renamed term is a function term only if the term is one
      cases t with
      | var w => simp at hus
      | const a => simp at hus
      | app g ts => exact hocc g ts rfl
  | @occurs v f ts es b hv hocc =>
    rw [List.map_cons, Equation.rename, Term.rename_var]
    have hocc' := occursIn_rename hac hp.env hρ hp.isRegular hp.right
    rw [Term.rename_app] at hocc' ⊢
    exact .occurs (mt (Bindings.isBound_rename_iff hρ.injective).1 hv) (hocc'.trans hocc)
  | @decompose f g ts us es b r hfg hl _ ih =>
    have h := ih hp.decompose hac
    rw [List.map_append, show (ts.zip us).map (Equation.rename ρ) =
      (ts.map (Term.rename ρ)).zip (us.map (Term.rename ρ)) from List.zip_map.symm] at h
    rw [List.map_cons, Equation.rename, Term.rename_app, Term.rename_app]
    refine .decompose hfg ?_ h
    rw [List.length_map, List.length_map, hl]
  | clash hclash => exact .clash hclash.rename

/-! ### No choice -/

/-- Nothing clashes with a variable. -/
theorem not_clash_var (v : Variable) : ¬ Clash t (.var v) := by
  intro h
  cases t with
  | var w => exact h
  | const a => exact h
  | app f ts => exact h

/-- **Derivations are unique**: at most one rule applies to a first equation. -/
theorem unique (h : Unified es b r) (hp : Posed p es b) (h' : Unified es b r') :
    r = r' := by
  induction h generalizing r' with
  | done =>
    cases h' with
    | done => rfl
  | symbol hac _ ih =>
    cases h' with
    | symbol _ h' => exact ih hp.tail h'
    | clash hclash => exact absurd (hac.symm.trans hclash) (by simp)
  | turn ht _ ih =>
    cases h' with
    | turn _ h' => exact ih hp.turn h'
    | same => exact absurd rfl (ht _)
    | follow => exact absurd rfl (ht _)
    | followRight => exact absurd rfl (ht _)
    | bind => exact absurd rfl (ht _)
    | clash hclash => exact absurd hclash (not_clash_var _)
  | same _ ih =>
    cases h' with
    | turn ht => exact absurd rfl (ht _)
    | same h' => exact ih hp.tail h'
    | follow ht => exact absurd rfl ht
    | followRight hvw => exact absurd rfl hvw
    | bind ht => exact absurd rfl ht
    | clash hclash => exact hclash.elim
  | follow ht hu _ ih =>
    cases h' with
    | turn ht' => exact absurd rfl (ht' _)
    | same => exact absurd rfl ht
    | follow _ hu' h' =>
      obtain rfl := hp.env.unique hu hu'
      exact ih (hp.follow hu) h'
    | followRight _ hv => exact absurd ⟨_, hu⟩ hv
    | bind _ hv => exact absurd ⟨_, hu⟩ hv
    | occurs hv => exact absurd ⟨_, hu⟩ hv
    | clash hclash => exact hclash.elim
  | followRight hvw hv hu _ ih =>
    cases h' with
    | turn ht => exact absurd rfl (ht _)
    | same => exact absurd rfl hvw
    | follow _ hu' => exact absurd ⟨_, hu'⟩ hv
    | followRight _ _ hu' h' =>
      obtain rfl := hp.env.unique hu hu'
      exact ih (hp.followRight hu) h'
    | bind _ _ hw => exact absurd ⟨_, hu⟩ (hw _ rfl)
    | clash hclash => exact hclash.elim
  | bind ht hv hw hocc _ ih =>
    cases h' with
    | turn ht' => exact absurd rfl (ht' _)
    | same => exact absurd rfl ht
    | follow _ hu => exact absurd ⟨_, hu⟩ hv
    | followRight _ _ hu => exact absurd ⟨_, hu⟩ (hw _ rfl)
    | bind _ _ _ _ h' => exact ih (hp.bind hv) h'
    | occurs _ hocc' =>
      have hfound := Except.ok.inj ((hocc _ _ rfl).symm.trans hocc')
      exact absurd hfound (by simp)
    | clash hclash => exact hclash.elim
  | occurs hv hocc =>
    cases h' with
    | follow _ hu => exact absurd ⟨_, hu⟩ hv
    | bind _ _ _ hocc' =>
      have hfound := Except.ok.inj ((hocc' _ _ rfl).symm.trans hocc)
      exact absurd hfound (by simp)
    | occurs => rfl
    | clash hclash => exact hclash.elim
  | decompose hfg hl _ ih =>
    cases h' with
    | decompose _ _ h' => exact ih hp.decompose h'
    | clash hclash =>
      rcases hclash with hfg' | hl'
      · exact absurd (hfg.symm.trans hfg') (by simp)
      · exact absurd hl hl'
  | clash hclash =>
    cases h' with
    | symbol hac => exact absurd (hac.symm.trans hclash) (by simp)
    | turn => exact absurd hclash (not_clash_var _)
    | same => exact hclash.elim
    | follow => exact hclash.elim
    | followRight => exact hclash.elim
    | bind => exact hclash.elim
    | occurs => rfl
    | decompose hfg hl =>
      rcases hclash with hfg' | hl'
      · exact absurd (hfg.symm.trans hfg') (by simp)
      · exact absurd hl hl'
    | clash => rfl

/-! ### What is mentioned -/

theorem exists_right_of_zip {ts us : List Term} (hl : ts.length = us.length) (ht : t ∈ ts) :
    ∃ u, (t, u) ∈ ts.zip us := by
  rw [← List.map_fst_zip hl.le] at ht
  obtain ⟨⟨t, u⟩, htu, rfl⟩ := List.mem_map.1 ht
  exact ⟨u, htu⟩

theorem exists_left_of_zip {ts us : List Term} (hl : ts.length = us.length) (hu : u ∈ us) :
    ∃ t, (t, u) ∈ ts.zip us := by
  rw [← List.map_snd_zip hl.ge] at hu
  obtain ⟨⟨t, u⟩, htu, rfl⟩ := List.mem_map.1 hu
  exact ⟨t, htu⟩

/-- The environment has every variable that only one side of an equation has. -/
def Mentioned (c : Bindings) (e : Equation) : Prop :=
  ∀ v, (v ∈ e.1.occurrences → v ∈ e.2.occurrences ∨ c.Mentions v) ∧
    (v ∈ e.2.occurrences → v ∈ e.1.occurrences ∨ c.Mentions v)

/-- **What only one side has is bound** or occurs in what is bound, in the end. -/
theorem mentions (h : Unified es b r) (hr : r = some c) : ∀ e ∈ es, Mentioned c e := by
  induction h with
  | done => simp
  | symbol _ _ ih =>
    refine List.forall_mem_cons.2 ⟨?_, ih hr⟩
    intro v
    simp [Term.occurrences]
  | turn _ _ ih =>
    obtain ⟨hfirst, hrest⟩ := List.forall_mem_cons.1 (ih hr)
    exact List.forall_mem_cons.2 ⟨fun v => (hfirst v).symm, hrest⟩
  | same _ ih =>
    refine List.forall_mem_cons.2 ⟨?_, ih hr⟩
    intro v
    exact ⟨.inl, .inl⟩
  | @follow v t u es b r _ hu hrest ih =>
    obtain ⟨hfirst, htail⟩ := List.forall_mem_cons.1 (ih hr)
    have hb := (hrest.isPrefix hr).subset hu
    refine List.forall_mem_cons.2 ⟨?_, htail⟩
    intro x
    constructor
    · intro hx
      obtain rfl := List.mem_singleton.1 hx
      exact .inr ⟨x, u, hb, .inl rfl⟩
    · intro hx
      rcases (hfirst x).1 hx with hxu | hc
      · exact .inr ⟨v, u, hb, .inr hxu⟩
      · exact .inr hc
  | @followRight v w u es b r _ _ hu hrest ih =>
    obtain ⟨hfirst, htail⟩ := List.forall_mem_cons.1 (ih hr)
    have hb := (hrest.isPrefix hr).subset hu
    refine List.forall_mem_cons.2 ⟨?_, htail⟩
    intro x
    constructor
    · intro hx
      rcases (hfirst x).1 hx with hxu | hc
      · exact .inr ⟨w, u, hb, .inr hxu⟩
      · exact .inr hc
    · intro hx
      obtain rfl := List.mem_singleton.1 hx
      exact .inr ⟨x, u, hb, .inl rfl⟩
  | @bind v t es b r _ _ _ _ hrest ih =>
    have hb : c.Binds v t :=
      (hrest.isPrefix hr).subset (Bindings.binds_bind_iff.2 (.inr ⟨rfl, rfl⟩))
    refine List.forall_mem_cons.2 ⟨?_, ih hr⟩
    intro x
    constructor
    · intro hx
      obtain rfl := List.mem_singleton.1 hx
      exact .inr ⟨x, t, hb, .inl rfl⟩
    · intro hx
      exact .inr ⟨v, t, hb, .inr hx⟩
  | @decompose f g ts us es b r _ hl _ ih =>
    obtain ⟨hargs, htail⟩ := List.forall_mem_append.1 (ih hr)
    refine List.forall_mem_cons.2 ⟨?_, htail⟩
    intro x
    constructor
    · intro hx
      obtain ⟨t, ht, hxt⟩ := Term.mem_occurrences_app.1 hx
      obtain ⟨u, htu⟩ := exists_right_of_zip hl ht
      refine ((hargs _ htu x).1 hxt).imp_left fun hxu => ?_
      exact Term.mem_occurrences_app.2 ⟨u, (List.of_mem_zip htu).2, hxu⟩
    · intro hx
      obtain ⟨u, hu, hxu⟩ := Term.mem_occurrences_app.1 hx
      obtain ⟨t, htu⟩ := exists_left_of_zip hl hu
      refine ((hargs _ htu x).2 hxu).imp_left fun hxt => ?_
      exact Term.mem_occurrences_app.2 ⟨t, (List.of_mem_zip htu).1, hxt⟩
  | occurs | clash => cases hr

end Unified

/-! ### Operands -/

namespace Item

/-- Renames the variables of an operand: of a term or a literal as such, and of each item of a
sequence. -/
def renameOperand (ρ : Variable → Variable) : Item → Item
  | .list xs => .list (xs.map (rename ρ))
  | .tuple xs => .tuple (xs.map (rename ρ))
  | i => i.rename ρ

theorem IsSequenceOf.rename {x : Item} {ts : List Term} (h : x.IsSequenceOf ts) :
    (x.renameOperand ρ).IsSequenceOf (ts.map (Term.rename ρ)) := by
  have hts : (ts.map Item.term).map (Item.rename ρ) = (ts.map (Term.rename ρ)).map Item.term := by
    rw [List.map_map, List.map_map]
    rfl
  rcases h with rfl | rfl
  · exact .inl (congrArg Item.list hts)
  · exact .inr (congrArg Item.tuple hts)

end Item

namespace Matched

variable {x y : Item}

theorem rename (h : Matched p x y) (hp : ∀ v, p.var v = true → p.var (ρ v) = true) :
    Matched p (x.renameOperand ρ) (y.renameOperand ρ) := by
  cases h with
  | terms ht hu => exact .terms (Term.meets_rename hp ht) (Term.meets_rename hp hu)
  | literals hl hm => exact .literals (Literal.meets_rename hp hl) (Literal.meets_rename hp hm)
  | sequences hx hy hts hus =>
    refine .sequences hx.rename hy.rename ?_ ?_
    · exact List.forall_mem_map.2 fun t ht => Term.meets_rename hp (hts t ht)
    · exact List.forall_mem_map.2 fun u hu => Term.meets_rename hp (hus u hu)

/-- As one term, a renamed operand is the renamed term. -/
theorem operand_rename (h : Matched p x y) : (x.renameOperand ρ).operand = x.operand.rename ρ ∧
    (y.renameOperand ρ).operand = y.operand.rename ρ := by
  cases h with
  | terms => exact ⟨rfl, rfl⟩
  | literals => exact ⟨Literal.asTerm_rename _, Literal.asTerm_rename _⟩
  | sequences hx hy =>
    constructor
    · rw [hx.rename.operand_eq, hx.operand_eq, Term.rename_app]
    · rw [hy.rename.operand_eq, hy.operand_eq, Term.rename_app]

/-- **Renamed operands have the renamed answer**, binding by binding. -/
theorem unify_rename (h : Matched .loose x y) (hb : b.Meets .loose) (hac : b.Acyclic)
    (hρ : IsRenaming ρ) (hr : unify x y b = .ok r) :
    unify (x.renameOperand ρ) (y.renameOperand ρ) (b.rename ρ) =
      .ok (r.map (Bindings.rename ρ)) := by
  have h' : Matched .loose (x.renameOperand ρ) (y.renameOperand ρ) := h.rename hρ.regular
  have hb' : (b.rename ρ).Meets .loose := hb.rename hρ hρ.regular
  -- the renamed operands have some answer, and it is derived like this one
  obtain ⟨r', hr'⟩ := h'.unify_total hb' (hac.rename hρ.injective)
  have hu := (h.unified hb hr).rename (h.posed rfl hb) hac hρ
  obtain ⟨hx, hy⟩ := h.operand_rename (ρ := ρ)
  rw [List.map_singleton, Equation.rename, ← hx, ← hy] at hu
  rw [hr', (h'.unified hb' hr').unique (h'.posed rfl hb') hu]

end Matched

section Literals

variable {l m : Literal}

theorem unifyLiterals_rename (hl : l.meets .regular = true) (hm : m.meets .regular = true)
    (hb : b.Meets .regular) (hac : b.Acyclic) (hρ : IsRenaming ρ)
    (h : unifyLiterals l m b = .ok r) :
    unifyLiterals (l.rename ρ) (m.rename ρ) (b.rename ρ) = .ok (r.map (Bindings.rename ρ)) :=
  (Matched.literals hl hm).loose.unify_rename hb.loose hac hρ h

/-- Literals that share no variable leave all their variables in the environment that
unifies them. -/
theorem unifyLiterals_mentions (hl : l.meets .regular = true) (hm : m.meets .regular = true)
    (hb : b.Meets .regular) (h : unifyLiterals l m b = .ok (some c))
    (happart : ∀ v ∈ l.occurrences, v ∉ m.occurrences) :
    (∀ v ∈ l.occurrences, c.Mentions v) ∧ ∀ v ∈ m.occurrences, c.Mentions v := by
  have hu := unifyLiterals_unified hl hm hb h
  have hmentioned := hu.mentions rfl _ (List.mem_singleton_self _)
  constructor
  · intro v hv
    exact ((hmentioned v).1 hv).resolve_left (happart v hv)
  · intro v hv
    exact ((hmentioned v).2 hv).resolve_left fun hv' => happart v hv' hv

end Literals

end HornSearch
