/-
HornSearch/Proofs/FullValues.lean

Applying an environment computes full values.  What is applied to is a term or a literal
(`Item.IsExpression`), and its full value under an acyclic environment is its instance under
the solution of the environment.  So three laws come from facts about solutions:

* what is left are the unbound variables that are reached (`Acyclic.mem_occurrences_solution`);
* applying a larger environment afterwards is applying it at once
  (`Acyclic.solution_instantiate`), and for the environment itself this says that applying it
  again changes nothing;
* only the bindings that are reached matter (`Acyclic.valueOf_of_agrees`).  The other
  environment need not be acyclic elsewhere: each binding that is reached is one of its own, so
  that the steps it grants are enough.

`IsFullValue` collects the laws, and `substitute_fullValue` is the main result.
-/
import HornSearch.Proofs.MostGeneral

namespace HornSearch

variable {p : Criterion} {b c : Bindings} {σ τ : Assignment} {i j : Item} {v w : Variable}

/-! ### Terms and literals -/

namespace Item

/-- The item is a term or a literal, and all its parts meet the criterion. -/
inductive IsExpression (p : Criterion) : Item → Prop where
  | term {t : Term} : t.meets p = true → IsExpression p (.term t)
  | literal {l : Literal} : l.meets p = true → IsExpression p (.literal l)

namespace IsExpression

theorem meets (hi : i.IsExpression p) : i.operand.meets p = true := by
  cases hi with
  | term ht => exact ht
  | literal hl => exact hl

theorem isRegular [p.Named] (hi : i.IsExpression p) :
    ∀ v ∈ i.operand.occurrences, v.isRegular = true :=
  fun _ hv => Term.isRegular_of_mem_occurrences hi.meets hv

theorem operand_instantiate (hi : i.IsExpression p) :
    (i.instantiate σ).operand = i.operand.instantiate σ := by
  cases hi with
  | term ht => rfl
  | literal hl => exact Literal.asTerm_instantiate

theorem instantiate (hi : i.IsExpression p)
    (hσ : ∀ v ∈ i.operand.occurrences, (σ v).meets p = true) :
    (i.instantiate σ).IsExpression p := by
  cases hi with
  | term ht => exact .term (Term.meets_instantiate ht hσ)
  | literal hl => exact .literal (Literal.meets_instantiate hl hσ)

theorem instantiate_congr (hi : i.IsExpression p)
    (h : ∀ v ∈ i.operand.occurrences, σ v = τ v) : i.instantiate σ = i.instantiate τ := by
  cases hi with
  | term ht => exact congrArg Item.term (Term.instantiate_congr h)
  | literal hl => exact congrArg Item.literal (Literal.instantiate_congr h)

theorem instantiate_instantiate (hi : i.IsExpression p) :
    (i.instantiate σ).instantiate τ = i.instantiate fun v => (σ v).instantiate τ := by
  cases hi with
  | term ht => exact congrArg Item.term (Term.instantiate_instantiate _)
  | literal hl => exact congrArg Item.literal Literal.instantiate_instantiate

/-- Where each variable has a value, replacing the variables gives the instance. -/
theorem bindM_eq_ok (hi : i.IsExpression p) {f : Variable → Checked Item}
    (hf : ∀ v ∈ i.operand.occurrences, f v = .ok (.term (σ v))) :
    i.bindM f = .ok (i.instantiate σ) := by
  cases hi with
  | term ht => exact Bindings.bindM_term_eq_ok hf
  | @literal l hl =>
    have hargs : l.bindM (fun v => asArgument (f v)) = .ok (l.instantiate σ) := by
      refine Literal.bindM_eq_ok fun v hv => ?_
      rw [hf v hv]
      rfl
    rw [Item.bindM, hargs]
    rfl

/-- The variables of a term or a literal are those that occur in it. -/
theorem exists_freeVariables [p.Named] (hi : i.IsExpression p) :
    ∃ vs, i.freeVariables = .ok vs ∧ ∀ v, v ∈ vs ↔ v ∈ i.operand.occurrences := by
  have hreg := hi.isRegular
  have hhash : i.operand.occurrences.all Variable.isHashable = true :=
    List.all_eq_true.2 fun v hv => Variable.isHashable_of_isRegular (hreg v hv)
  refine ⟨_, ?_, fun v => Variable.mem_distinct_iff hreg⟩
  cases hi with
  | term ht => exact if_pos hhash
  | literal hl => exact if_pos hhash

end IsExpression

end Item

/-! ### Bindings that are reached -/

namespace Bindings

/-- The environment `c` finds what `b` finds under each variable that is reached from `v`
through `b`. -/
def AgreesFrom (b c : Bindings) (v : Variable) : Prop :=
  ∀ w, b.Reaches v w → c.lookup (.ofVariable w) = b.lookup (.ofVariable w)

theorem AgreesFrom.step (h : b.AgreesFrom c v) (hw : b.DependsOn v w) : b.AgreesFrom c w :=
  fun x hx => h x (hx.head hw)

/-- What is found under a variable is what it is bound to. -/
theorem Meets.binds_of_lookup (hc : c.Meets p) (hv : v.isRegular = true) {t : Term}
    (h : c.lookup (.ofVariable v) = .ok (some (.term t))) : c.Binds v t := by
  by_cases hb : c.IsBound v
  · obtain ⟨u, hu⟩ := hb
    rw [hc.lookup_of_binds hu] at h
    obtain rfl : u = t := by simpa using h
    exact hu
  · rw [hc.lookup_of_unbound hv hb] at h
    cases h

/-- The steps that the other environment grants are enough, since it has every binding that is
reached. -/
theorem AgreesFrom.rank_le_size (h : b.AgreesFrom c v) (hb : b.Meets p) (hc : c.Meets .loose) :
    b.rank v ≤ c.size := by
  classical
  have hsub : (b.keys.filterMap Item.var?).toFinset.filter (b.Reaches v) ⊆
      (c.keys.filterMap Item.var?).toFinset := by
    intro w hw
    obtain ⟨hkey, hreach⟩ := Finset.mem_filter.1 hw
    obtain ⟨i, hi, hiw⟩ := List.mem_filterMap.1 (List.mem_toFinset.1 hkey)
    obtain ⟨e, he, rfl⟩ := List.mem_map.1 hi
    obtain ⟨x, t, rfl, hx, -⟩ := hb.typed e he
    obtain rfl : x = w := by simpa [Item.ofVariable, Item.var?] using hiw
    have hlookup := h x hreach
    rw [hb.lookup_of_binds he] at hlookup
    exact List.mem_toFinset.2 (hc.binds_of_lookup hx hlookup).mem_keys
  exact (Finset.card_le_card hsub).trans c.card_keys_le_size

variable [p.Named]

/-- Along bindings that agree the same value is found. -/
theorem Acyclic.value_of_agrees (hac : b.Acyclic) (hb : b.Meets p) (hv : v.isRegular = true)
    (h : b.AgreesFrom c v) {steps : Nat} (hsteps : b.rank v < steps) :
    c.value steps v = .ok (.term (b.solution v)) := by
  induction v using hac.induct generalizing steps with
  | h v ih =>
    obtain ⟨steps, rfl⟩ := Nat.exists_eq_add_one.2 (Nat.zero_lt_of_lt hsteps)
    rw [value, h v .refl]
    by_cases hbound : b.IsBound v
    · obtain ⟨t, ht⟩ := hbound
      rw [hb.lookup_of_binds ht, hac.solution_of_binds hb ht]
      refine bindM_term_eq_ok fun w hw => ?_
      have hvw : b.DependsOn v w := ⟨t, ht, hw⟩
      exact ih w hvw (hb.dependsOn_regular hvw) (h.step hvw)
        ((hac.rank_lt hvw).trans_le (Nat.le_of_lt_succ hsteps))
    · rw [hb.lookup_of_unbound hv hbound, hac.solution_of_unbound hb hv hbound]
      rfl

/-- **Only the bindings that are reached matter** to a full value. -/
theorem Acyclic.valueOf_of_agrees (hac : b.Acyclic) (hb : b.Meets p) (hc : c.Meets .loose)
    (hv : v.isRegular = true) (h : b.AgreesFrom c v) :
    c.valueOf v = .ok (.term (b.solution v)) :=
  hac.value_of_agrees hb hv h (Nat.lt_succ_of_le (h.rank_le_size hb hc))

end Bindings

/-! ### Full values -/

/-- What is wanted of the item `j` that comes of applying `b` to `i`. -/
structure IsFullValue (b : Bindings) (i j : Item) : Prop where
  /-- Its variables are the unbound variables that are reached from those of `i`. -/
  remaining : ∃ vs ws, i.freeVariables = .ok vs ∧ j.freeVariables = .ok ws ∧
    ∀ w, w ∈ ws ↔ (∃ v ∈ vs, b.Reaches v w) ∧ ¬ b.IsBound w
  /-- Applying the environment again changes nothing. -/
  idempotent : b.substitute j = .ok j
  /-- Applying an environment with more bindings afterwards is applying it at once. -/
  composes : ∀ c : Bindings, c.Meets .loose → c.Acyclic → (∀ v t, b.Binds v t → c.Binds v t) →
    ∃ k, c.substitute j = .ok k ∧ c.substitute i = .ok k
  /-- The result depends on nothing but the bindings of variables that are reached. -/
  depends : ∀ c : Bindings, c.Meets .loose →
    (∀ v ∈ i.operand.occurrences, b.AgreesFrom c v) → c.substitute i = .ok j

namespace Item.IsExpression

variable [p.Named]

/-- Applying an environment puts in its solution. -/
theorem substitute_eq (hi : i.IsExpression p) (hb : b.Meets .loose) (hac : b.Acyclic) :
    b.substitute i = .ok (i.instantiate b.solution) :=
  hi.bindM_eq_ok fun v hv => hac.valueOf_eq hb (hi.isRegular v hv)

theorem mem_occurrences_substitute (hi : i.IsExpression p) (hb : b.Meets .loose)
    (hac : b.Acyclic) : w ∈ (i.instantiate b.solution).operand.occurrences ↔
      (∃ v ∈ i.operand.occurrences, b.Reaches v w) ∧ ¬ b.IsBound w := by
  rw [hi.operand_instantiate, Term.mem_occurrences_instantiate]
  constructor
  · rintro ⟨v, hv, hw⟩
    obtain ⟨hvw, hfree⟩ := (hac.mem_occurrences_solution hb (hi.isRegular v hv)).1 hw
    exact ⟨⟨v, hv, hvw⟩, hfree⟩
  · rintro ⟨⟨v, hv, hvw⟩, hfree⟩
    exact ⟨v, hv, (hac.mem_occurrences_solution hb (hi.isRegular v hv)).2 ⟨hvw, hfree⟩⟩

/-- Putting in the solutions of an environment and of one with more bindings is putting in the
second one. -/
theorem instantiate_solutions (hi : i.IsExpression p) (hb : b.Meets .loose) (hac : b.Acyclic)
    (hc : c.Meets .loose) (hacc : c.Acyclic) (hsub : ∀ v t, b.Binds v t → c.Binds v t) :
    (i.instantiate b.solution).instantiate c.solution = i.instantiate c.solution := by
  rw [hi.instantiate_instantiate]
  exact hi.instantiate_congr fun v hv =>
    hac.solution_instantiate hb hacc hc hsub (hi.isRegular v hv)

end Item.IsExpression

/-- **Applying an acyclic environment computes the full value** of every term and literal. -/
theorem substitute_fullValue (hi : i.IsExpression .loose) (hb : b.Meets .loose)
    (hac : b.Acyclic) : ∃ j, b.substitute i = .ok j ∧ IsFullValue b i j := by
  have hj : (i.instantiate b.solution).IsExpression .loose :=
    hi.instantiate fun v hv => hac.meets_solution hb (fun _ _ => hb.meets) (hi.isRegular v hv)
      (hi.isRegular v hv)
  -- the environment itself has all its bindings, so that this gives the second law too
  have hcomposes : ∀ c : Bindings, c.Meets .loose → c.Acyclic →
      (∀ v t, b.Binds v t → c.Binds v t) →
      c.substitute (i.instantiate b.solution) = .ok (i.instantiate c.solution) := by
    intro c hc hacc hsub
    rw [hj.substitute_eq hc hacc, hi.instantiate_solutions hb hac hc hacc hsub]
  refine ⟨_, hi.substitute_eq hb hac, ?_, ?_, fun c hc hacc hsub => ?_, fun c hc hagrees => ?_⟩
  · obtain ⟨vs, hvs, hmem⟩ := hi.exists_freeVariables
    obtain ⟨ws, hws, hmem'⟩ := hj.exists_freeVariables
    refine ⟨vs, ws, hvs, hws, fun w => ?_⟩
    simp only [hmem, hmem', hi.mem_occurrences_substitute hb hac]
  · exact hcomposes b hb hac fun _ _ h => h
  · exact ⟨_, hcomposes c hc hacc hsub, hi.substitute_eq hc hacc⟩
  · exact hi.bindM_eq_ok fun v hv =>
      hac.valueOf_of_agrees hb hc (hi.isRegular v hv) (hagrees v hv)

/-- Both arguments of `p(g(?X), ?Y)` lead to `?Z`, which is unbound; `?A` is out of reach. -/
theorem fullValue_chain :
    let i : Item := .literal ⟨.str "p", [.app (.str "g") [.var (.named "X")], .var (.named "Y")]⟩
    let b : Bindings := .ofPairs [(.named "X", .app (.str "f") [.var (.named "Y"), .const .null]),
      (.named "Y", .var (.named "Z")), (.named "A", .var (.named "X"))]
    let j : Item := .literal ⟨.str "p",
      [.app (.str "g") [.app (.str "f") [.var (.named "Z"), .const .null]], .var (.named "Z")]⟩
    i.IsExpression .loose ∧ b.Meets .loose ∧ b.Acyclic ∧
      b.substitute i = .ok j ∧ IsFullValue b i j := by
  intro i b j
  have hi : i.IsExpression .loose := .literal rfl
  obtain ⟨hb, hac⟩ : b.Meets .loose ∧ b.Acyclic := Bindings.meets_acyclic_ofPairs
    (fun v => if v == .named "A" then 3 else if v == .named "X" then 2 else
      if v == .named "Y" then 1 else 0) _ (by decide) (by simp [Variable.named])
  obtain ⟨k, hk, hfull⟩ := substitute_fullValue hi hb hac
  have hj : b.substitute i = .ok j := rfl
  obtain rfl : j = k := Except.ok.inj (hj.symm.trans hk)
  exact ⟨hi, hb, hac, hk, hfull⟩

end HornSearch
