/-
HornSearch/Proofs/Environment.lean

Environments that bind variables to terms.  `Bindings.Meets p` says that an
environment is such a table: no variable is bound twice, and the terms meet the
criterion `p`.  `Bindings.Binds v t` is one direct binding, and `DependsOn v w`
says that `w` occurs in the term that `v` is directly bound to.

An environment is acyclic (`Bindings.Acyclic`) if no variable reaches itself that
way.  Since only finitely many variables are bound, each then has a finite rank,
the number of bound variables that it reaches (`Acyclic.rank_lt`), and every chain of
bindings from it ends within that many steps.  So applying the environment is
instantiation by one assignment, `Bindings.solution`:

* `Acyclic.substitute_term`, `Acyclic.substitute_literal`: applying the environment
  succeeds, and gives the instance under its solution;
* `Acyclic.solution_of_binds`, `Acyclic.solution_of_unbound`: what the solution is;
* `Acyclic.mem_occurrences_solution`: the variables that are left are the unbound ones
  that can be reached;
* `Acyclic.solution_instantiate`: full values lead on to those under more bindings;
* `Acyclic.bind`: binding an unbound variable to a term in whose full value it does
  not occur keeps the environment acyclic.

What holds of all variables that a term leads to (`Bindings.AllReached`) holds of those that its
arguments and its variables lead to, and a binding to a term of which it holds as well keeps it
(`AllReached.bind`).
-/
import HornSearch.Substitution
import HornSearch.Proofs.TermEquality
import HornSearch.Proofs.Variables
import Mathlib.Data.Finset.Card
import Mathlib.Data.Fintype.Basic

namespace HornSearch

/-! ### Variables as keys -/

theorem Item.ofVariable_injective : Function.Injective Item.ofVariable := by
  intro v w h
  exact Term.var.inj (Item.term.inj h)

theorem Item.alike_ofVariable_iff {v w : Variable} (hv : v.isRegular = true)
    (hw : w.isRegular = true) :
    (Item.ofVariable v).alike (Item.ofVariable w) = true ↔ v = w := by
  show (false || (v == w)) = true ↔ _
  rw [Bool.false_or, Variable.beq_iff_eq_of_isRegular hv hw]

/-- The variables in the terms, literals and rules of a list of items. -/
def Item.variablesHeld (xs : List Item) : List Variable :=
  xs.flatMap fun x => x.occurrences?.getD []

theorem Item.mem_variablesHeld {xs : List Item} {v : Variable} :
    v ∈ variablesHeld xs ↔ ∃ i ∈ xs, v ∈ i.occurrences?.getD [] :=
  List.mem_flatMap

theorem Item.mem_variablesHeld_of_term {xs : List Item} {t : Term} {v : Variable}
    (ht : .term t ∈ xs) (hv : v ∈ t.occurrences) : v ∈ variablesHeld xs :=
  mem_variablesHeld.2 ⟨_, ht, hv⟩

namespace Bindings

variable {p q : Criterion} {b c : Bindings} {v w : Variable} {t u : Term}

/-! ### Tables from variables to terms -/

/-- The environment binds `v` directly to `t`. -/
def Binds (b : Bindings) (v : Variable) (t : Term) : Prop :=
  (Item.ofVariable v, Item.term t) ∈ b.entries

/-- The environment binds `v`. -/
def IsBound (b : Bindings) (v : Variable) : Prop := ∃ t, b.Binds v t

/-- The environment binds regular variables, each once, to terms that meet a
criterion. -/
structure Meets (p : Criterion) (b : Bindings) : Prop where
  typed : ∀ e ∈ b.entries, ∃ v t, e = (Item.ofVariable v, Item.term t) ∧
    v.isRegular = true ∧ t.meets p = true
  nodup : b.keys.Nodup

theorem meets_empty : empty.Meets p where
  typed := by simp [empty]
  nodup := by simp [empty, keys]

theorem Meets.isRegular (h : b.Meets p) (hb : b.Binds v t) : v.isRegular = true := by
  obtain ⟨w, u, e, hw, -⟩ := h.typed _ hb
  obtain rfl := Item.ofVariable_injective (Prod.ext_iff.1 e).1
  exact hw

theorem Meets.meets (h : b.Meets p) (hb : b.Binds v t) : t.meets p = true := by
  obtain ⟨w, u, e, -, hu⟩ := h.typed _ hb
  obtain rfl := Item.term.inj (Prod.ext_iff.1 e).2
  exact hu

theorem Meets.of_binds (h : b.Meets p) (hq : ∀ v t, b.Binds v t → t.meets q = true) :
    b.Meets q where
  typed e he := by
    obtain ⟨v, t, rfl, hv, -⟩ := h.typed e he
    exact ⟨v, t, rfl, hv, hq v t he⟩
  nodup := h.nodup

theorem Meets.regular (h : b.Meets .definite) : b.Meets .regular :=
  h.of_binds fun _ _ ht => Term.meets_regular_of_definite (h.meets ht)

theorem Meets.loose [p.Named] (h : b.Meets p) : b.Meets .loose :=
  h.of_binds fun _ _ ht => Term.meets_loose (h.meets ht)

theorem Meets.unique (h : b.Meets p) (ht : b.Binds v t) (hu : b.Binds v u) : t = u := by
  have e := List.inj_on_of_nodup_map h.nodup ht hu rfl
  exact Item.term.inj (Prod.ext_iff.1 e).2

/-- What is found under a variable is the term that it is bound to. -/
theorem Meets.find?_eq_some_iff (h : b.Meets p) (hv : v.isRegular = true) {i : Item} :
    b.find? (.ofVariable v) = some i ↔ ∃ t, i = .term t ∧ b.Binds v t := by
  constructor
  · intro hf
    obtain ⟨e, he, rfl⟩ := Option.map_eq_some_iff.1 hf
    have hmem := List.mem_of_find?_eq_some he
    obtain ⟨w, t, rfl, hw, -⟩ := h.typed e hmem
    obtain rfl := (Item.alike_ofVariable_iff hw hv).1 (by simpa using List.find?_some he)
    exact ⟨t, rfl, hmem⟩
  · rintro ⟨t, rfl, ht⟩
    have hs : (b.entries.find? (·.1.alike (.ofVariable v))).isSome = true := by
      rw [List.find?_isSome]
      exact ⟨_, ht, (Item.alike_ofVariable_iff hv hv).2 rfl⟩
    obtain ⟨e, he⟩ := Option.isSome_iff_exists.1 hs
    have hmem := List.mem_of_find?_eq_some he
    obtain ⟨w, u, rfl, hw, -⟩ := h.typed e hmem
    obtain rfl := (Item.alike_ofVariable_iff hw hv).1 (by simpa using List.find?_some he)
    rw [h.unique ht hmem, find?, he, Option.map_some]

theorem Meets.find?_eq_none_iff (h : b.Meets p) (hv : v.isRegular = true) :
    b.find? (.ofVariable v) = none ↔ ¬ b.IsBound v := by
  rw [Option.eq_none_iff_forall_ne_some]
  constructor
  · rintro hf ⟨t, ht⟩
    exact hf _ ((h.find?_eq_some_iff hv).2 ⟨t, rfl, ht⟩)
  · intro hb i hi
    obtain ⟨t, -, ht⟩ := (h.find?_eq_some_iff hv).1 hi
    exact hb ⟨t, ht⟩

theorem isHashable_ofVariable (hv : v.isRegular = true) :
    (Item.ofVariable v).isHashable = true :=
  Variable.isHashable_of_isRegular hv

theorem Meets.lookup_of_binds (h : b.Meets p) (hb : b.Binds v t) :
    b.lookup (.ofVariable v) = .ok (some (.term t)) := by
  have hv := h.isRegular hb
  rw [lookup, get?, if_pos (isHashable_ofVariable hv), (h.find?_eq_some_iff hv).2 ⟨t, rfl, hb⟩]

theorem Meets.lookup_of_unbound (h : b.Meets p) (hv : v.isRegular = true)
    (hb : ¬ b.IsBound v) : b.lookup (.ofVariable v) = .ok none := by
  rw [lookup, get?, if_pos (isHashable_ofVariable hv), (h.find?_eq_none_iff hv).2 hb]

/-! ### One binding more -/

/-- The environment with one binding more, at the end. -/
def bind (b : Bindings) (v : Variable) (t : Term) : Bindings :=
  ⟨b.entries ++ [(Item.ofVariable v, Item.term t)]⟩

theorem binds_bind_iff : (b.bind v t).Binds w u ↔ b.Binds w u ∨ (w = v ∧ u = t) := by
  simp only [Binds, bind, List.mem_append, List.mem_singleton, Prod.mk.injEq, Item.term.injEq,
    Item.ofVariable_injective.eq_iff]

theorem Meets.extend_eq (h : b.Meets p) (hv : v.isRegular = true) (hb : ¬ b.IsBound v) :
    b.extend (.ofVariable v) (.term t) = .ok (b.bind v t) :=
  extend_eq_ok_iff.2 ⟨isHashable_ofVariable hv, (h.find?_eq_none_iff hv).2 hb, rfl⟩

theorem Meets.bind (h : b.Meets p) (hv : v.isRegular = true) (ht : t.meets p = true)
    (hb : ¬ b.IsBound v) : (b.bind v t).Meets p where
  typed e he := by
    rcases List.mem_append.1 he with he | he
    · exact h.typed e he
    · exact ⟨v, t, List.mem_singleton.1 he, hv, ht⟩
  nodup := by
    rw [keys, Bindings.bind, List.map_append]
    refine h.nodup.append (List.nodup_singleton _) ?_
    rintro i hi hi'
    obtain rfl := List.mem_singleton.1 hi'
    obtain ⟨e, he, hk⟩ := List.mem_map.1 hi
    obtain ⟨w, u, rfl, -⟩ := h.typed e he
    obtain rfl := Item.ofVariable_injective hk
    exact hb ⟨u, he⟩

/-! ### Chains of bindings -/

/-- The variable `w` occurs in the term that `v` is directly bound to. -/
def DependsOn (b : Bindings) (v w : Variable) : Prop :=
  ∃ t, b.Binds v t ∧ w ∈ t.occurrences

/-- The variable `w` is `v`, or is met by passing from a variable to those in the
term that it is bound to. -/
abbrev Reaches (b : Bindings) (v w : Variable) : Prop := Relation.ReflTransGen b.DependsOn v w

/-- No variable reaches itself by one binding or more. -/
def Acyclic (b : Bindings) : Prop := ∀ v, ¬ Relation.TransGen b.DependsOn v v

theorem acyclic_empty : empty.Acyclic := by
  intro v hv
  obtain ⟨w, ⟨t, ht, -⟩, -⟩ := Relation.TransGen.head'_iff.1 hv
  simp [Binds, empty] at ht

/-- What falls along every binding cannot come back to where it was. -/
theorem acyclic_of_rank (f : Variable → Nat) (hf : ∀ v w, b.DependsOn v w → f w < f v) :
    b.Acyclic := by
  have hlt : ∀ v w, Relation.TransGen b.DependsOn v w → f w < f v := by
    intro v w h
    induction h with
    | single h => exact hf _ _ h
    | tail _ h ih => exact (hf _ _ h).trans ih
  intro v hv
  exact lt_irrefl _ (hlt v v hv)

/-! ### What holds wherever bindings lead -/

/-- Every variable that is reached from the term has the property. -/
def AllReached (b : Bindings) (P : Variable → Prop) (t : Term) : Prop :=
  ∀ v ∈ t.occurrences, ∀ w, b.Reaches v w → P w

namespace AllReached

variable {P Q : Variable → Prop}

theorem self (h : b.AllReached P (.var v)) : P v :=
  h v (List.mem_singleton_self v) v .refl

theorem of_mem_occurrences (h : b.AllReached P t) (hv : v ∈ t.occurrences) :
    b.AllReached P (.var v) := by
  intro x hx
  obtain rfl := List.mem_singleton.1 hx
  exact h x hv

theorem follow (h : b.AllReached P (.var v)) (ht : b.Binds v t) : b.AllReached P t :=
  fun _ hx w hxw => h v (List.mem_singleton_self v) w (hxw.head ⟨t, ht, hx⟩)

theorem arg {f : Value} {ts : List Term} (h : b.AllReached P (.app f ts)) (ht : t ∈ ts) :
    b.AllReached P t :=
  fun v hv => h v (Term.mem_occurrences_app.2 ⟨t, ht, hv⟩)

theorem imp (h : b.AllReached P t) (hPQ : ∀ w, P w → Q w) : b.AllReached Q t :=
  fun v hv w hvw => hPQ w (h v hv w hvw)

/-- **One binding more** leads nowhere else, if what is bound leads there too. -/
theorem bind (hu : b.AllReached P u) (ht : b.AllReached P t) : (b.bind v t).AllReached P u := by
  -- each variable along a chain leads there, also where the new binding is passed
  have hchain : ∀ x y, b.AllReached P (.var x) → (b.bind v t).Reaches x y →
      b.AllReached P (.var y) := by
    intro x y hx hxy
    induction hxy with
    | refl => exact hx
    | tail _ hstep ih =>
      obtain ⟨s, hs, hy⟩ := hstep
      rcases binds_bind_iff.1 hs with hs | ⟨rfl, rfl⟩
      · exact (ih.follow hs).of_mem_occurrences hy
      · exact ht.of_mem_occurrences hy
  intro x hx y hxy
  exact (hchain x y (hu.of_mem_occurrences hx) hxy).self

end AllReached

/-! ### Tables that are written out -/

/-- The environment of the given bindings, in their order. -/
def ofPairs (pairs : List (Variable × Term)) : Bindings :=
  ⟨pairs.map fun e => (.ofVariable e.1, .term e.2)⟩

theorem binds_ofPairs_iff {pairs : List (Variable × Term)} :
    (ofPairs pairs).Binds v t ↔ (v, t) ∈ pairs := by
  simp only [Binds, ofPairs, List.mem_map, Prod.mk.injEq, Item.term.injEq,
    Item.ofVariable_injective.eq_iff]
  constructor
  · rintro ⟨e, he, rfl, rfl⟩
    exact he
  · exact fun h => ⟨_, h, rfl, rfl⟩

theorem keys_ofPairs (pairs : List (Variable × Term)) :
    (ofPairs pairs).keys = (pairs.map Prod.fst).map Item.ofVariable := by
  simp [keys, ofPairs]

/-- Bindings of variables to terms are a table that is written out. -/
theorem exists_ofPairs {entries : List (Item × Item)}
    (h : ∀ e ∈ entries, ∃ v t, e = (Item.ofVariable v, Item.term t)) :
    ∃ pairs, entries = (ofPairs pairs).entries := by
  induction entries with
  | nil => exact ⟨[], rfl⟩
  | cons e entries ih =>
    obtain ⟨⟨v, t, rfl⟩, hrest⟩ := List.forall_mem_cons.1 h
    obtain ⟨pairs, rfl⟩ := ih hrest
    exact ⟨(v, t) :: pairs, rfl⟩

/-- A table is acyclic if a rank falls along each of its bindings. -/
theorem meets_acyclic_ofPairs (f : Variable → Nat) (pairs : List (Variable × Term))
    (h : ∀ e ∈ pairs, e.1.isRegular = true ∧ e.2.meets p = true ∧
      ∀ w ∈ e.2.occurrences, f w < f e.1)
    (hnodup : (pairs.map Prod.fst).Nodup) : (ofPairs pairs).Meets p ∧ (ofPairs pairs).Acyclic := by
  refine ⟨⟨fun e he => ?_, ?_⟩, acyclic_of_rank f ?_⟩
  · obtain ⟨⟨v, t⟩, hvt, rfl⟩ := List.mem_map.1 he
    obtain ⟨hv, ht, -⟩ := h _ hvt
    exact ⟨v, t, rfl, hv, ht⟩
  · exact keys_ofPairs pairs ▸ hnodup.map Item.ofVariable_injective
  · rintro v w ⟨t, ht, hw⟩
    exact (h _ (binds_ofPairs_iff.1 ht)).2.2 w hw

/-! ### Ranks -/

open Classical in
/-- The number of bound variables that a variable reaches. -/
noncomputable def rank (b : Bindings) (v : Variable) : Nat :=
  ((b.keys.filterMap Item.var?).toFinset.filter (b.Reaches v)).card

theorem length_keys_le_size (b : Bindings) : (b.keys.filterMap Item.var?).length ≤ b.size := by
  simpa [size, keys] using List.length_filterMap_le Item.var? b.keys

open Classical in
theorem card_keys_le_size (b : Bindings) :
    (b.keys.filterMap Item.var?).toFinset.card ≤ b.size :=
  (List.toFinset_card_le _).trans b.length_keys_le_size

theorem rank_le_size (b : Bindings) (v : Variable) : b.rank v ≤ b.size := by
  classical
  exact (Finset.card_filter_le _ _).trans b.card_keys_le_size

theorem Binds.mem_keys (h : b.Binds v t) : v ∈ b.keys.filterMap Item.var? :=
  List.mem_filterMap.2 ⟨_, List.mem_map.2 ⟨_, h, rfl⟩, rfl⟩

/-- Following a binding leads to a variable of smaller rank, since a bound variable
is not reached again. -/
theorem Acyclic.rank_lt (hac : b.Acyclic) (h : b.DependsOn v w) : b.rank w < b.rank v := by
  classical
  obtain ⟨t, ht, hw⟩ := h
  have hstep : b.DependsOn v w := ⟨t, ht, hw⟩
  apply Finset.card_lt_card
  refine ⟨fun x hx => ?_, fun hsub => ?_⟩
  · rw [Finset.mem_filter] at hx ⊢
    exact ⟨hx.1, hx.2.head hstep⟩
  · have hv : v ∈ (b.keys.filterMap Item.var?).toFinset.filter (b.Reaches v) :=
      Finset.mem_filter.2 ⟨List.mem_toFinset.2 ht.mem_keys, .refl⟩
    have hwv : b.Reaches w v := (Finset.mem_filter.1 (hsub hv)).2
    exact hac v (Relation.TransGen.head' hstep hwv)

theorem rank_pos (h : b.Binds v t) : 0 < b.rank v := by
  classical
  refine Finset.card_pos.2 ⟨v, ?_⟩
  exact Finset.mem_filter.2 ⟨List.mem_toFinset.2 h.mem_keys, .refl⟩

/-- Induction along the bindings: a claim about a variable may use the claim about
the variables in the term that it is bound to. -/
theorem Acyclic.induct (hac : b.Acyclic) {P : Variable → Prop}
    (h : ∀ v, (∀ w, b.DependsOn v w → P w) → P v) (v : Variable) : P v := by
  induction hn : b.rank v using Nat.strong_induction_on generalizing v with
  | _ n ih =>
    subst hn
    exact h v fun w hw => ih _ (hac.rank_lt hw) w rfl

/-! ### The solution of an environment -/

variable [p.Named]

/-- The full value of each variable. -/
def solution (b : Bindings) : Assignment := fun v =>
  match b.valueOf v with
  | .ok (.term t) => t
  | _ => .var v

theorem Meets.dependsOn_regular (h : b.Meets p) (hw : b.DependsOn v w) :
    w.isRegular = true := by
  obtain ⟨t, ht, hwt⟩ := hw
  exact Term.isRegular_of_mem_occurrences (h.meets ht) hwt

theorem bindM_term_eq_ok {f : Variable → Checked Item} {σ : Assignment}
    (h : ∀ v ∈ t.occurrences, f v = .ok (.term (σ v))) :
    (Item.term t).bindM f = .ok (.term (t.instantiate σ)) := by
  cases t with
  | var v => simpa [Item.bindM, Term.occurrences] using h v
  | const a => simp [Item.bindM, Term.bindM, Except.map]
  | app g ts =>
    have ht : (Term.app g ts).bindM (fun v => Item.asArgument (f v)) =
        .ok ((Term.app g ts).instantiate σ) := by
      refine Term.bindM_eq_ok fun v hv => ?_
      rw [h v hv]
      rfl
    rw [Item.bindM, ht]
    · rfl
    · simp

/-- A variable has a full value, which any count of steps above its rank finds. -/
theorem Acyclic.exists_value (hac : b.Acyclic) (h : b.Meets p) (v : Variable)
    (hv : v.isRegular = true) :
    ∃ t, ∀ steps, b.rank v < steps → b.value steps v = .ok (.term t) := by
  induction v using hac.induct with
  | h v ih =>
    by_cases hb : b.IsBound v
    · obtain ⟨t, ht⟩ := hb
      -- a value for each variable of `t`, found in any number of steps above its rank
      have hval : ∀ w, ∃ u, w ∈ t.occurrences →
          ∀ steps, b.rank w < steps → b.value steps w = .ok (.term u) := by
        intro w
        by_cases hw : w ∈ t.occurrences
        · obtain ⟨u, hu⟩ := ih w ⟨t, ht, hw⟩ (h.dependsOn_regular ⟨t, ht, hw⟩)
          exact ⟨u, fun _ => hu⟩
        · exact ⟨.var w, fun h => absurd h hw⟩
      choose σ hσ using hval
      refine ⟨t.instantiate σ, fun steps hsteps => ?_⟩
      obtain ⟨steps, rfl⟩ := Nat.exists_eq_add_one.2 (Nat.zero_lt_of_lt hsteps)
      rw [value, h.lookup_of_binds ht]
      exact bindM_term_eq_ok fun w hw =>
        hσ w hw steps ((hac.rank_lt ⟨t, ht, hw⟩).trans_le (Nat.le_of_lt_succ hsteps))
    · refine ⟨.var v, fun steps hsteps => ?_⟩
      obtain ⟨steps, rfl⟩ := Nat.exists_eq_add_one.2 (Nat.zero_lt_of_lt hsteps)
      rw [value, h.lookup_of_unbound hv hb]
      rfl

theorem Acyclic.value_eq (hac : b.Acyclic) (h : b.Meets p) (hv : v.isRegular = true)
    {steps : Nat} (hs : b.rank v < steps) : b.value steps v = .ok (.term (b.solution v)) := by
  obtain ⟨t, ht⟩ := hac.exists_value h v hv
  rw [ht steps hs, solution, valueOf, ht _ (Nat.lt_succ_of_le (b.rank_le_size v))]

theorem Acyclic.valueOf_eq (hac : b.Acyclic) (h : b.Meets p) (hv : v.isRegular = true) :
    b.valueOf v = .ok (.term (b.solution v)) :=
  hac.value_eq h hv (Nat.lt_succ_of_le (b.rank_le_size v))

theorem Acyclic.solution_of_unbound (hac : b.Acyclic) (h : b.Meets p)
    (hv : v.isRegular = true) (hb : ¬ b.IsBound v) : b.solution v = .var v := by
  have e := hac.valueOf_eq h hv
  rw [valueOf, value, h.lookup_of_unbound hv hb] at e
  exact (Item.term.inj (Except.ok.inj e)).symm

theorem Acyclic.solution_of_binds (hac : b.Acyclic) (h : b.Meets p) (ht : b.Binds v t) :
    b.solution v = t.instantiate b.solution := by
  have e := hac.valueOf_eq h (h.isRegular ht)
  rw [valueOf, value, h.lookup_of_binds ht] at e
  have e' : (Item.term t).bindM (b.value b.size) = .ok (.term (t.instantiate b.solution)) := by
    refine bindM_term_eq_ok fun w hw => ?_
    refine hac.value_eq h (h.dependsOn_regular ⟨t, ht, hw⟩) ?_
    exact (hac.rank_lt ⟨t, ht, hw⟩).trans_le (b.rank_le_size v)
  exact (Item.term.inj (Except.ok.inj (e'.symm.trans e))).symm

/-- The full values meet what the bound terms meet. -/
theorem Acyclic.meets_solution (hac : b.Acyclic) (h : b.Meets p)
    (hq : ∀ v t, b.Binds v t → t.meets q = true) (hv : v.isRegular = true)
    (hvar : q.var v = true) : (b.solution v).meets q = true := by
  induction v using hac.induct with
  | h v ih =>
    by_cases hb : b.IsBound v
    · obtain ⟨t, ht⟩ := hb
      rw [hac.solution_of_binds h ht]
      exact Term.meets_instantiate (hq v t ht) fun w hw =>
        ih w ⟨t, ht, hw⟩ (h.dependsOn_regular ⟨t, ht, hw⟩) (Term.var_of_mem_occurrences (hq v t ht) hw)
    · rw [hac.solution_of_unbound h hv hb]
      exact hvar

theorem Acyclic.isRegular_of_mem_solution (hac : b.Acyclic) (h : b.Meets p)
    (hv : v.isRegular = true) (hw : w ∈ (b.solution v).occurrences) : w.isRegular = true :=
  Term.isRegular_of_mem_occurrences
    (hac.meets_solution h (fun _ _ ht => Term.meets_loose (h.meets ht)) hv hv) hw

omit [p.Named] in
theorem Acyclic.regular_solution (hac : b.Acyclic) (h : b.Meets .regular)
    (hv : v.isRegular = true) : (b.solution v).meets .regular = true :=
  hac.meets_solution h (fun _ _ => h.meets) hv hv

theorem Acyclic.definite_solution (hac : b.Acyclic) (h : b.Meets .definite)
    (hv : v.isRegular = true) : (b.solution v).meets .definite = true :=
  hac.meets_solution h.regular (fun _ _ => h.meets) hv hv

/-- What is left in a full value are the unbound variables that can be reached. -/
theorem Acyclic.mem_occurrences_solution (hac : b.Acyclic) (h : b.Meets p)
    (hv : v.isRegular = true) :
    w ∈ (b.solution v).occurrences ↔ b.Reaches v w ∧ ¬ b.IsBound w := by
  induction v using hac.induct with
  | h v ih =>
    by_cases hb : b.IsBound v
    · obtain ⟨t, ht⟩ := hb
      rw [hac.solution_of_binds h ht, Term.mem_occurrences_instantiate]
      constructor
      · rintro ⟨x, hx, hw⟩
        obtain ⟨hxw, hwb⟩ := (ih x ⟨t, ht, hx⟩ (h.dependsOn_regular ⟨t, ht, hx⟩)).1 hw
        exact ⟨hxw.head ⟨t, ht, hx⟩, hwb⟩
      · rintro ⟨hvw, hwb⟩
        -- the chain is not empty, since `v` is bound and `w` is not
        rcases Relation.ReflTransGen.cases_head hvw with rfl | ⟨x, hvx, hxw⟩
        · exact absurd ⟨t, ht⟩ hwb
        · obtain ⟨u, hu, hx⟩ := hvx
          obtain rfl := h.unique ht hu
          exact ⟨x, hx, (ih x ⟨t, ht, hx⟩ (h.dependsOn_regular ⟨t, ht, hx⟩)).2 ⟨hxw, hwb⟩⟩
    · rw [hac.solution_of_unbound h hv hb, Term.occurrences, List.mem_singleton]
      constructor
      · rintro rfl
        exact ⟨.refl, hb⟩
      · rintro ⟨hvw, -⟩
        rcases Relation.ReflTransGen.cases_head hvw with rfl | ⟨x, ⟨t, ht, -⟩, -⟩
        · rfl
        · exact absurd ⟨t, ht⟩ hb

/-- Full values lead on to the full values under more bindings. -/
theorem Acyclic.solution_instantiate (hac : b.Acyclic) (h : b.Meets p) (hacc : c.Acyclic)
    (hc : c.Meets p) (hsub : ∀ v t, b.Binds v t → c.Binds v t) (hv : v.isRegular = true) :
    (b.solution v).instantiate c.solution = c.solution v := by
  induction v using hac.induct with
  | h v ih =>
    by_cases hb : b.IsBound v
    · obtain ⟨t, ht⟩ := hb
      rw [hac.solution_of_binds h ht, hacc.solution_of_binds hc (hsub v t ht),
        Term.instantiate_instantiate]
      exact Term.instantiate_congr fun w hw =>
        ih w ⟨t, ht, hw⟩ (h.dependsOn_regular ⟨t, ht, hw⟩)
    · rw [hac.solution_of_unbound h hv hb, Term.instantiate_var]

/-- **An occurs check keeps environments acyclic**: an unbound variable may be bound
to any term in whose full value it does not occur. -/
theorem Acyclic.bind (hac : b.Acyclic) (h : b.Meets p) (hb : ¬ b.IsBound v)
    (ht : t.meets p = true) (hocc : v ∉ (t.instantiate b.solution).occurrences) :
    (b.bind v t).Acyclic := by
  classical
  have hnot : ∀ w ∈ t.occurrences, ¬ b.Reaches w v := by
    intro w hw hwv
    have hw' := Term.isRegular_of_mem_occurrences ht hw
    exact hocc (Term.mem_occurrences_instantiate.2
      ⟨w, hw, (hac.mem_occurrences_solution h hw').2 ⟨hwv, hb⟩⟩)
  -- whatever reaches `v` is lifted above all the ranks there were
  refine acyclic_of_rank (fun x => b.rank x + if b.Reaches x v then b.size + 1 else 0) ?_
  rintro x y ⟨u, hu, hy⟩
  rcases binds_bind_iff.1 hu with hu | ⟨rfl, rfl⟩
  · have hlt := hac.rank_lt ⟨u, hu, hy⟩
    have hreach : b.Reaches y v → b.Reaches x v := fun hyv => hyv.head ⟨u, hu, hy⟩
    -- an old binding: the ranks fall, and only what reaches `v` is lifted
    by_cases hyv : b.Reaches y v
    · simpa [hyv, hreach hyv] using hlt
    · simp only [hyv, if_false]
      omega
  · have hle := b.rank_le_size y
    have hrefl : b.Reaches x x := .refl
    simp only [hnot y hy, hrefl, if_false, if_true]
    omega

/-! ### Applying the environment -/

theorem Acyclic.substitute_term (hac : b.Acyclic) (h : b.Meets p)
    (ht : t.meets p = true) :
    b.substitute (.term t) = .ok (.term (t.instantiate b.solution)) :=
  bindM_term_eq_ok fun _ hv => hac.valueOf_eq h (Term.isRegular_of_mem_occurrences ht hv)

theorem Acyclic.substituteLiteral_eq (hac : b.Acyclic) (h : b.Meets p) {l : Literal}
    (hl : l.meets p = true) :
    b.substituteLiteral l = .ok (l.instantiate b.solution) := by
  refine Literal.bindM_eq_ok fun v hv => ?_
  rw [hac.valueOf_eq h (Criterion.Named.isRegular v (Literal.var_of_mem_occurrences hl hv))]
  rfl

theorem Acyclic.substitute_literal (hac : b.Acyclic) (h : b.Meets p) {l : Literal}
    (hl : l.meets p = true) :
    b.substitute (.literal l) = .ok (.literal (l.instantiate b.solution)) := by
  have e := hac.substituteLiteral_eq h hl
  rw [substituteLiteral] at e
  rw [substitute, Item.bindM, e]
  rfl

end Bindings

end HornSearch
