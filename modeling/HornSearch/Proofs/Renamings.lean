/-
HornSearch/Proofs/Renamings.lean

Renaming the variables of everything at hand.  A renaming (`IsRenaming`) gives different
variables to different ones, and regular variables to regular ones; it acts on terms,
literals, items, environments and proof trees, by replacing every variable in them.

What an environment says does not depend on the names of its variables:

* `Bindings.Meets.rename`, `Acyclic.rename`: a renamed table is a table, and acyclic if
  the old one is;
* `Acyclic.solution_rename`: its full values are the renamed full values.

Names that are given to finitely many variables only are part of a permutation of all
variables (`exists_perm`), so one may always rename by a permutation.
-/
import HornSearch.Search.Proof
import HornSearch.Proofs.Environment
import Mathlib.SetTheory.Cardinal.Arithmetic

namespace HornSearch

variable {p : Criterion} {ρ τ : Variable → Variable} {σ : Assignment}

/-- Different variables get different ones, and regular variables regular ones. -/
structure IsRenaming (ρ : Variable → Variable) : Prop where
  injective : Function.Injective ρ
  regular : ∀ v, v.isRegular = true → (ρ v).isRegular = true

/-! ### Terms -/

namespace Term

variable {t u : Term}

@[simp] theorem rename_var (v : Variable) : (var v).rename ρ = var (ρ v) := by
  simp [rename]

@[simp] theorem rename_const (a : Value) : (const a).rename ρ = const a := by
  simp [rename]

@[simp] theorem rename_app (f : Value) (ts : List Term) :
    (app f ts).rename ρ = app f (ts.map (rename ρ)) := by
  simp [rename, renameList_eq]

theorem rename_instantiate (t : Term) :
    (t.rename ρ).instantiate σ = t.instantiate fun v => σ (ρ v) := by
  rw [rename_eq_instantiate, instantiate_instantiate]
  simp only [instantiate_var]

theorem instantiate_rename (t : Term) :
    (t.instantiate σ).rename ρ = t.instantiate fun v => (σ v).rename ρ := by
  simp only [rename_eq_instantiate, instantiate_instantiate]

theorem rename_rename (t : Term) : (t.rename ρ).rename τ = t.rename fun v => τ (ρ v) := by
  simp only [rename_eq_instantiate, instantiate_instantiate, instantiate_var]

theorem rename_congr (h : ∀ v ∈ t.occurrences, ρ v = τ v) : t.rename ρ = t.rename τ := by
  rw [rename_eq_instantiate, rename_eq_instantiate]
  apply instantiate_congr
  intro v hv
  rw [h v hv]

theorem rename_id (t : Term) : (t.rename fun v => v) = t := by
  rw [rename_eq_instantiate]
  exact instantiate_id t

theorem mem_occurrences_rename {w : Variable} :
    w ∈ (t.rename ρ).occurrences ↔ ∃ v ∈ t.occurrences, w = ρ v := by
  rw [rename_eq_instantiate, mem_occurrences_instantiate]
  simp [occurrences]

theorem meets_rename (hp : ∀ v, p.var v = true → p.var (ρ v) = true)
    (ht : t.meets p = true) : (t.rename ρ).meets p = true := by
  rw [rename_eq_instantiate]
  apply meets_instantiate ht
  intro v hv
  exact hp v (var_of_mem_occurrences ht hv)

/-- A term whose renaming is a variable is one. -/
theorem eq_var_of_rename {w : Variable} (h : t.rename ρ = var w) : ∃ v, t = var v ∧ w = ρ v := by
  cases t with
  | var v =>
    rw [rename_var] at h
    exact ⟨v, rfl, (Term.var.inj h).symm⟩
  | const a => simp at h
  | app f ts => simp at h

/-- Two renamings that agree on a term agree on its variables. -/
theorem eq_of_rename_eq (h : t.rename ρ = t.rename τ) {v : Variable} (hv : v ∈ t.occurrences) :
    ρ v = τ v := by
  induction t using induct with
  | var w =>
    obtain rfl := List.mem_singleton.1 hv
    simpa using h
  | const a => simp [occurrences] at hv
  | app f ts ih =>
    obtain ⟨t, ht, hvt⟩ := mem_occurrences_app.1 hv
    rw [rename_app, rename_app] at h
    have hts := (Term.app.inj h).2
    exact ih t ht (List.map_inj_left.1 hts t ht) hvt

end Term

/-! ### Literals and items -/

namespace Literal

variable {l m : Literal}

theorem asTerm_rename (l : Literal) : (l.rename ρ).asTerm = l.asTerm.rename ρ := by
  rw [rename_eq_instantiate, asTerm_instantiate, Term.rename_eq_instantiate]

theorem rename_instantiate (l : Literal) :
    (l.rename ρ).instantiate σ = l.instantiate fun v => σ (ρ v) := by
  apply asTerm_injective
  rw [asTerm_instantiate, asTerm_rename, Term.rename_instantiate, asTerm_instantiate]

theorem instantiate_rename (l : Literal) :
    (l.instantiate σ).rename ρ = l.instantiate fun v => (σ v).rename ρ := by
  apply asTerm_injective
  rw [asTerm_rename, asTerm_instantiate, Term.instantiate_rename, asTerm_instantiate]

theorem rename_rename (l : Literal) : (l.rename ρ).rename τ = l.rename fun v => τ (ρ v) := by
  apply asTerm_injective
  rw [asTerm_rename, asTerm_rename, Term.rename_rename, asTerm_rename]

theorem rename_congr (h : ∀ v ∈ l.occurrences, ρ v = τ v) : l.rename ρ = l.rename τ := by
  apply asTerm_injective
  rw [asTerm_rename, asTerm_rename]
  exact Term.rename_congr h

theorem rename_id (l : Literal) : (l.rename fun v => v) = l := by
  apply asTerm_injective
  rw [asTerm_rename, Term.rename_id]

theorem mem_occurrences_rename {w : Variable} :
    w ∈ (l.rename ρ).occurrences ↔ ∃ v ∈ l.occurrences, w = ρ v := by
  rw [← occurrences_asTerm, asTerm_rename]
  exact Term.mem_occurrences_rename

theorem meets_rename (hp : ∀ v, p.var v = true → p.var (ρ v) = true)
    (hl : l.meets p = true) : (l.rename ρ).meets p = true := by
  rw [meets, asTerm_rename]
  exact Term.meets_rename hp hl

theorem rename_of_isGround (h : l.isGround = true) : l.rename ρ = l := by
  rw [rename_eq_instantiate]
  exact instantiate_of_isGround h

end Literal

theorem Rule.meets_rename {r : Rule} (hp : ∀ v ∈ r.occurrences, p.var (ρ v) = true)
    (hr : r.meets p = true) : (r.rename ρ).meets p = true := by
  rw [Rule.rename_eq_instantiate]
  exact Rule.meets_instantiate hr hp

theorem Rule.rename_congr {r : Rule} (h : ∀ v ∈ r.occurrences, ρ v = τ v) :
    r.rename ρ = r.rename τ := by
  have hhead : r.head.rename ρ = r.head.rename τ :=
    Literal.rename_congr fun v hv => h v (Rule.mem_occurrences.2 (.inl hv))
  have hbody : r.body.map (Literal.rename ρ) = r.body.map (Literal.rename τ) := by
    apply List.map_congr_left
    intro l hl
    exact Literal.rename_congr fun v hv => h v (Rule.mem_occurrences.2 (.inr ⟨l, hl, hv⟩))
  rw [Rule.rename, Rule.rename, hhead, hbody]

theorem Rule.rename_rename (r : Rule) : (r.rename ρ).rename τ = r.rename fun v => τ (ρ v) := by
  simp only [Rule.rename, Literal.rename_rename, List.map_map, Function.comp_def]

theorem Rule.rename_id (r : Rule) : (r.rename fun v => v) = r := by
  have hbody : r.body.map (Literal.rename fun v => v) = r.body :=
    (List.map_congr_left fun l _ => Literal.rename_id l).trans (List.map_id' _)
  rw [Rule.rename, Literal.rename_id, hbody]

/-- Renames the variables in a term, a literal or a rule; the other kinds of items hold
none of their own. -/
def Item.rename (ρ : Variable → Variable) : Item → Item
  | .term t => .term (t.rename ρ)
  | .literal l => .literal (l.rename ρ)
  | .rule r => .rule (r.rename ρ)
  | i => i

@[simp] theorem Item.rename_term (t : Term) :
    (Item.term t).rename ρ = .term (t.rename ρ) := rfl

@[simp] theorem Item.rename_literal (l : Literal) :
    (Item.literal l).rename ρ = .literal (l.rename ρ) := rfl

@[simp] theorem Item.rename_ofVariable (v : Variable) :
    (Item.ofVariable v).rename ρ = .ofVariable (ρ v) := by
  rw [ofVariable, rename_term, Term.rename_var, ofVariable]

theorem Item.rename_id (i : Item) : (i.rename fun v => v) = i := by
  cases i with
  | term t => rw [rename_term, Term.rename_id]
  | literal l => rw [rename_literal, Literal.rename_id]
  | rule r => rw [rename, Rule.rename_id]
  | list xs => rfl
  | tuple xs => rfl
  | raw v => rfl

theorem Item.eq_term_of_rename {i : Item} {u : Term} (h : i.rename ρ = .term u) :
    ∃ t, i = .term t ∧ u = t.rename ρ := by
  cases i with
  | term t => exact ⟨t, rfl, (Item.term.inj h).symm⟩
  | literal l => cases h
  | rule r => cases h
  | list xs => cases h
  | tuple xs => cases h
  | raw v => cases h

/-! ### Proof trees -/

mutual

/-- Renames the variables in the goals, the facts and the copies of rules of a proof. -/
def ProofNode.rename (ρ : Variable → Variable) : ProofNode → ProofNode
  | .byFact goal fact depth => .byFact (goal.rename ρ) (fact.rename ρ) depth
  | .byRule goal rule children depth =>
    .byRule (goal.rename ρ) (rule.rename ρ) (ProofNode.renameAll ρ children) depth

/-- Renames the variables in several proofs. -/
def ProofNode.renameAll (ρ : Variable → Variable) : List ProofNode → List ProofNode
  | [] => []
  | node :: nodes => ProofNode.rename ρ node :: ProofNode.renameAll ρ nodes

end

/-! ### Environments -/

namespace Bindings

variable {b c : Bindings} {v w : Variable} {t u : Term}

/-- Renames the variables in the keys and the values. -/
def rename (ρ : Variable → Variable) (b : Bindings) : Bindings :=
  ⟨b.entries.map fun e => (e.1.rename ρ, e.2.rename ρ)⟩

theorem rename_id (b : Bindings) : (b.rename fun v => v) = b := by
  simp only [rename, Item.rename_id, Prod.mk.eta, List.map_id']

theorem binds_rename_iff : (b.rename ρ).Binds w u ↔
    ∃ v t, b.Binds v t ∧ w = ρ v ∧ u = t.rename ρ := by
  constructor
  · intro h
    obtain ⟨⟨key, value⟩, he, heq⟩ := List.mem_map.1 h
    obtain ⟨hkey, hvalue⟩ := Prod.mk.inj heq
    obtain ⟨s, rfl, hs⟩ := Item.eq_term_of_rename hkey
    obtain ⟨v, rfl, rfl⟩ := Term.eq_var_of_rename hs.symm
    obtain ⟨t, rfl, rfl⟩ := Item.eq_term_of_rename hvalue
    exact ⟨v, t, he, rfl, rfl⟩
  · rintro ⟨v, t, ht, rfl, rfl⟩
    refine List.mem_map.2 ⟨_, ht, ?_⟩
    rw [Item.rename_ofVariable, Item.rename_term]

theorem Binds.rename (h : b.Binds v t) : (b.rename ρ).Binds (ρ v) (t.rename ρ) :=
  binds_rename_iff.2 ⟨v, t, h, rfl, rfl⟩

theorem isBound_rename_iff (hρ : Function.Injective ρ) :
    (b.rename ρ).IsBound (ρ v) ↔ b.IsBound v := by
  constructor
  · rintro ⟨u, hu⟩
    obtain ⟨w, t, ht, hw, -⟩ := binds_rename_iff.1 hu
    obtain rfl := hρ hw
    exact ⟨t, ht⟩
  · rintro ⟨t, ht⟩
    exact ⟨_, ht.rename⟩

theorem rename_bind (b : Bindings) (v : Variable) (t : Term) :
    (b.bind v t).rename ρ = (b.rename ρ).bind (ρ v) (t.rename ρ) := by
  rw [rename, bind, List.map_append, List.map_singleton]
  simp only [Item.rename_ofVariable, Item.rename_term]
  rfl

theorem Meets.rename (h : b.Meets p) (hρ : IsRenaming ρ)
    (hp : ∀ v, p.var v = true → p.var (ρ v) = true) : (b.rename ρ).Meets p where
  typed e he := by
    obtain ⟨e', he', rfl⟩ := List.mem_map.1 he
    obtain ⟨v, t, rfl, hv, ht⟩ := h.typed e' he'
    refine ⟨ρ v, t.rename ρ, ?_, hρ.regular v hv, Term.meets_rename hp ht⟩
    rw [Item.rename_ofVariable, Item.rename_term]
  nodup := by
    have hkeys : (b.rename ρ).keys = b.keys.map (Item.rename ρ) := by
      rw [keys, keys, Bindings.rename, List.map_map, List.map_map]
      rfl
    rw [hkeys]
    apply h.nodup.map_on
    intro i hi j hj hij
    obtain ⟨e, he, rfl⟩ := List.mem_map.1 hi
    obtain ⟨e', he', rfl⟩ := List.mem_map.1 hj
    obtain ⟨v, t, rfl, -⟩ := h.typed e he
    obtain ⟨w, u, rfl, -⟩ := h.typed e' he'
    rw [Item.rename_ofVariable, Item.rename_ofVariable] at hij
    rw [hρ.injective (Item.ofVariable_injective hij)]

/-- **A renamed environment is acyclic** if the old one is. -/
theorem Acyclic.rename (hac : b.Acyclic) (hρ : Function.Injective ρ) : (b.rename ρ).Acyclic := by
  -- the rank of a variable is that of the one it stands for
  apply acyclic_of_rank fun w => b.rank (Function.invFun ρ w)
  rintro w x ⟨u, hu, hx⟩
  obtain ⟨v, t, ht, rfl, rfl⟩ := binds_rename_iff.1 hu
  obtain ⟨y, hy, rfl⟩ := Term.mem_occurrences_rename.1 hx
  rw [Function.leftInverse_invFun hρ, Function.leftInverse_invFun hρ]
  exact hac.rank_lt ⟨t, ht, hy⟩

theorem regular_rename (hρ : IsRenaming ρ) (h : b.Meets .regular) :
    (b.rename ρ).Meets .regular :=
  h.rename hρ hρ.regular

/-- **Full values of a renamed environment** are the renamed full values. -/
theorem Acyclic.solution_rename [p.Named] (hac : b.Acyclic) (h : b.Meets p) (hρ : IsRenaming ρ)
    (hv : v.isRegular = true) : (b.rename ρ).solution (ρ v) = (b.solution v).rename ρ := by
  have hac' := hac.rename hρ.injective
  have h' : (b.rename ρ).Meets .loose := h.loose.rename hρ hρ.regular
  induction v using hac.induct with
  | h v ih =>
    by_cases hb : b.IsBound v
    · obtain ⟨t, ht⟩ := hb
      rw [hac'.solution_of_binds h' ht.rename, hac.solution_of_binds h ht,
        Term.rename_instantiate, Term.instantiate_rename]
      apply Term.instantiate_congr
      intro w hw
      exact ih w ⟨t, ht, hw⟩ (h.dependsOn_regular ⟨t, ht, hw⟩)
    · have hb' : ¬ (b.rename ρ).IsBound (ρ v) := mt (isBound_rename_iff hρ.injective).1 hb
      rw [hac.solution_of_unbound h hv hb, hac'.solution_of_unbound h' (hρ.regular v hv) hb',
        Term.rename_var]

theorem Acyclic.literal_solution_rename (hac : b.Acyclic) (h : b.Meets .regular)
    (hρ : IsRenaming ρ) {l : Literal} (hl : l.meets .regular = true) :
    (l.rename ρ).instantiate (b.rename ρ).solution = (l.instantiate b.solution).rename ρ := by
  rw [Literal.rename_instantiate, Literal.instantiate_rename]
  apply Literal.instantiate_congr
  intro v hv
  exact hac.solution_rename h hρ (Literal.var_of_mem_occurrences (p := .regular) hl hv)

/-! ### The variables of an environment -/

/-- The variable is bound, or occurs in a term that some variable is bound to. -/
def Mentions (b : Bindings) (v : Variable) : Prop :=
  ∃ w t, b.Binds w t ∧ (v = w ∨ v ∈ t.occurrences)

theorem Mentions.mono (h : b.Mentions v) (hbc : b.entries <+: c.entries) : c.Mentions v := by
  obtain ⟨w, t, ht, hv⟩ := h
  exact ⟨w, t, hbc.subset ht, hv⟩

theorem Meets.isRegular_of_mentions (h : b.Meets .regular) (hv : b.Mentions v) :
    v.isRegular = true := by
  obtain ⟨w, t, ht, rfl | hv⟩ := hv
  · exact h.isRegular ht
  · exact h.dependsOn_regular ⟨t, ht, hv⟩

/-- The variables of an environment are finitely many. -/
theorem Meets.exists_mentioned (h : b.Meets p) :
    ∃ vs : List Variable, ∀ v, v ∈ vs ↔ b.Mentions v := by
  refine ⟨b.entries.flatMap fun e => e.1.occurrences?.getD [] ++ e.2.occurrences?.getD [], ?_⟩
  intro v
  rw [List.mem_flatMap]
  constructor
  · rintro ⟨e, he, hv⟩
    obtain ⟨w, t, rfl, -⟩ := h.typed e he
    refine ⟨w, t, he, (List.mem_append.1 hv).imp_left ?_⟩
    exact List.mem_singleton.1
  · rintro ⟨w, t, ht, hv⟩
    refine ⟨_, ht, List.mem_append.2 (hv.imp_left ?_)⟩
    exact List.mem_singleton.2

/-- Renamings that agree on the variables of an environment rename it alike. -/
theorem Meets.rename_congr (h : b.Meets p) (heq : ∀ v, b.Mentions v → ρ v = τ v) :
    b.rename ρ = b.rename τ := by
  have hentries : ∀ e ∈ b.entries,
      (e.1.rename ρ, e.2.rename ρ) = (e.1.rename τ, e.2.rename τ) := by
    intro e he
    obtain ⟨v, t, rfl, -⟩ := h.typed e he
    have hv := heq v ⟨v, t, he, .inl rfl⟩
    have ht : t.rename ρ = t.rename τ :=
      Term.rename_congr fun w hw => heq w ⟨v, t, he, .inr hw⟩
    simp only [Item.rename_ofVariable, Item.rename_term, hv, ht]
  rw [Bindings.rename, Bindings.rename, List.map_congr_left hentries]

/-- What is left of a literal under an environment occurs in one of the two. -/
theorem Acyclic.mem_occurrences_literal (hac : b.Acyclic) (h : b.Meets .regular) {l : Literal}
    (hl : l.meets .regular = true) (hw : w ∈ (l.instantiate b.solution).occurrences) :
    (w ∈ l.occurrences ∨ b.Mentions w) ∧ ¬ b.IsBound w := by
  obtain ⟨v, hv, hvw⟩ := Literal.mem_occurrences_instantiate.1 hw
  have hreg := Literal.var_of_mem_occurrences (p := .regular) hl hv
  obtain ⟨hreach, hfree⟩ := (hac.mem_occurrences_solution h hreg).1 hvw
  refine ⟨?_, hfree⟩
  rcases Relation.ReflTransGen.cases_tail hreach with rfl | ⟨x, -, ⟨t, ht, hwt⟩⟩
  · exact .inl hv
  · exact .inr ⟨x, t, ht, .inr hwt⟩

end Bindings

/-! ### Permutations -/

/-- The permutation gives regular variables to regular ones, and to no others. -/
def KeepsRegular (π : Equiv.Perm Variable) : Prop := ∀ v, (π v).isRegular = v.isRegular

namespace KeepsRegular

variable {π : Equiv.Perm Variable}

theorem isRenaming (h : KeepsRegular π) : IsRenaming π where
  injective := π.injective
  regular v hv := by rw [h v, hv]

theorem refl : KeepsRegular (Equiv.refl Variable) := fun _ => rfl

end KeepsRegular

open Classical in
/-- **Names for some of finitely many variables**, taken from among these, are part of a
permutation that changes no other variable. -/
theorem exists_perm_within {vs : List Variable} {P : Variable → Prop}
    (hvs : ∀ v ∈ vs, v.isRegular = true) (hρ : ∀ v ∈ vs, P v → ρ v ∈ vs)
    (hinj : ∀ v ∈ vs, P v → ∀ w ∈ vs, P w → ρ v = ρ w → v = w) :
    ∃ π : Equiv.Perm Variable, KeepsRegular π ∧ (∀ v ∈ vs, P v → π v = ρ v) ∧
      ∀ v, v ∉ vs → π v = v := by
  let s : Set {v : Variable // v ∈ vs} := {v | P v.1}
  let f : s ↪ {v : Variable // v ∈ vs} := {
    toFun := fun v => ⟨ρ v.1.1, hρ _ v.1.2 v.2⟩
    inj' := by
      intro v w h
      have hvw := hinj _ v.1.2 v.2 _ w.1.2 w.2 (Subtype.ext_iff.1 h)
      exact Subtype.ext (Subtype.ext hvw) }
  have : Finite {v : Variable // v ∈ vs} := (List.finite_toSet vs).to_subtype
  obtain ⟨g, hg⟩ := Cardinal.extend_function_finite f ⟨Equiv.refl _⟩
  refine ⟨Equiv.Perm.ofSubtype g, fun v => ?_, fun v hv hP => ?_, fun v hv => ?_⟩
  · by_cases hv : v ∈ vs
    · rw [Equiv.Perm.ofSubtype_apply_of_mem g hv, hvs v hv, hvs _ (g ⟨v, hv⟩).2]
    · rw [Equiv.Perm.ofSubtype_apply_of_not_mem g hv]
  · rw [Equiv.Perm.ofSubtype_apply_of_mem g hv]
    exact congrArg Subtype.val (hg ⟨⟨v, hv⟩, hP⟩)
  · exact Equiv.Perm.ofSubtype_apply_of_not_mem g hv

/-- **Names for finitely many variables** are part of a permutation of all variables. -/
theorem exists_perm {vs : List Variable} (hvs : ∀ v ∈ vs, v.isRegular = true)
    (hρ : ∀ v ∈ vs, (ρ v).isRegular = true)
    (hinj : ∀ v ∈ vs, ∀ w ∈ vs, ρ v = ρ w → v = w) :
    ∃ π : Equiv.Perm Variable, KeepsRegular π ∧ ∀ v ∈ vs, π v = ρ v := by
  -- the variables and their names are finitely many too
  have hall : ∀ v ∈ vs ++ vs.map ρ, v.isRegular = true :=
    List.forall_mem_append.2 ⟨hvs, List.forall_mem_map.2 hρ⟩
  have hmem : ∀ v ∈ vs ++ vs.map ρ, v ∈ vs → ρ v ∈ vs ++ vs.map ρ :=
    fun v _ hv => List.mem_append_right _ (List.mem_map_of_mem hv)
  obtain ⟨π, hπ, heq, -⟩ := exists_perm_within hall hmem fun v _ hv w _ hw => hinj v hv w hw
  exact ⟨π, hπ, fun v hv => heq v (List.mem_append_left _ hv) hv⟩

open Classical in
/-- **A permutation is changed on new variables.**  It can be made to send these where an
injective renaming does, if neither they nor their images are among the old ones. -/
theorem KeepsRegular.extend {π : Equiv.Perm Variable} (hπ : KeepsRegular π)
    {κ : Variable → Variable} {vs ws : List Variable} (hvs : ∀ v ∈ vs, v.isRegular = true)
    (hws : ∀ w ∈ ws, w.isRegular = true) (hκws : ∀ w ∈ ws, (κ w).isRegular = true)
    (hκ : ∀ v ∈ ws, ∀ w ∈ ws, κ v = κ w → v = w) (hapart : ∀ v ∈ vs, v ∉ ws)
    (hapart' : ∀ v ∈ vs, ∀ w ∈ ws, π v ≠ κ w) :
    ∃ τ : Equiv.Perm Variable, KeepsRegular τ ∧ (∀ v ∈ vs, τ v = π v) ∧ ∀ w ∈ ws, τ w = κ w := by
  let ρ : Variable → Variable := fun v => if v ∈ ws then κ v else π v
  have hnew : ∀ w ∈ ws, ρ w = κ w := fun w hw => if_pos hw
  have hold : ∀ v ∈ vs, ρ v = π v := fun v hv => if_neg (hapart v hv)
  obtain ⟨τ, hτ, heq⟩ : ∃ τ : Equiv.Perm Variable, KeepsRegular τ ∧
      ∀ v ∈ vs ++ ws, τ v = ρ v := by
    apply exists_perm
    · exact List.forall_mem_append.2 ⟨hvs, hws⟩
    · intro v hv
      rcases List.mem_append.1 hv with hv | hv
      · rw [hold v hv, hπ, hvs v hv]
      · rw [hnew v hv, hκws v hv]
    · intro v hv w hw hvw
      rcases List.mem_append.1 hv with hv | hv
      · rcases List.mem_append.1 hw with hw | hw
        · rw [hold v hv, hold w hw] at hvw
          exact π.injective hvw
        · rw [hold v hv, hnew w hw] at hvw
          exact absurd hvw (hapart' v hv w hw)
      · rcases List.mem_append.1 hw with hw | hw
        · rw [hnew v hv, hold w hw] at hvw
          exact absurd hvw.symm (hapart' w hw v hv)
        · rw [hnew v hv, hnew w hw] at hvw
          exact hκ v hv w hw hvw
  refine ⟨τ, hτ, ?_, ?_⟩
  · intro v hv
    rw [heq v (List.mem_append_left _ hv), hold v hv]
  · intro w hw
    rw [heq w (List.mem_append_right _ hw), hnew w hw]

end HornSearch
