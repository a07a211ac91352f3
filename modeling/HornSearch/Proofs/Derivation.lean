/-
HornSearch/Proofs/Derivation.lean

Unification without counting.  `Unified es b r` says that the equations `es`, taken
from left to right under the environment `b`, end in `r`: an environment, or none if
some equation fails.  Its rules are the steps of the algorithm, each for one kind of
first equation, and equations between arguments are put in front of the rest.

* `derives_unifyWithin`, `unifyEach_leads`: whatever the algorithm answers is
  derived, at any nesting that it is granted, and so is what the operations answer
  (`unifyTerms_unified`, `unifyLists_unified`, `unifyLiterals_unified`);
* `Unified.binds_of_closed`: what a derivation binds is built from what there was, so
  whatever holds of the terms at hand and of their subterms holds of the bindings;
* `Unified.meets`, `Unified.acyclic`, `Unified.isPrefix`: environments grow at their
  end and stay tables and acyclic;
* `Unified.sound`: what solves the result solves the environment and the equations;
* `Unified.complete`: what solves the environment and the equations solves the
  result, which there is.

So a derivation computes the solutions of its equations among those of the
environment.  Everything about unification that follows is an induction over these
rules.
-/
import HornSearch.Unification
import HornSearch.Proofs.Solutions

namespace HornSearch

/-- Two terms to be made equal. -/
abbrev Equation := Term × Term

/-- Two terms that no assignment makes equal, from their outermost parts. -/
def Clash : Term → Term → Prop
  | .const a, .const c => a.sameSymbol c = false
  | .const _, .app _ _ => True
  | .app _ _, .const _ => True
  | .app f ts, .app g us => f.equals g = false ∨ ts.length ≠ us.length
  | _, _ => False

/-- The equations, from left to right under an environment, end in an environment or
in failure. -/
inductive Unified : List Equation → Bindings → Option Bindings → Prop where
  | done {b : Bindings} : Unified [] b (some b)
  | symbol {a c : Value} {es : List Equation} {b : Bindings} {r : Option Bindings} :
      a.sameSymbol c = true → Unified es b r →
      Unified ((.const a, .const c) :: es) b r
  -- the variable of an equation comes first from here on
  | turn {t : Term} {w : Variable} {es : List Equation} {b : Bindings} {r : Option Bindings} :
      (∀ v, t ≠ .var v) → Unified ((.var w, t) :: es) b r →
      Unified ((t, .var w) :: es) b r
  | same {v : Variable} {es : List Equation} {b : Bindings} {r : Option Bindings} :
      Unified es b r → Unified ((.var v, .var v) :: es) b r
  | follow {v : Variable} {t u : Term} {es : List Equation} {b : Bindings}
      {r : Option Bindings} :
      t ≠ .var v → b.Binds v u → Unified ((t, u) :: es) b r →
      Unified ((.var v, t) :: es) b r
  -- only an unbound variable lets the binding of the other one be followed
  | followRight {v w : Variable} {u : Term} {es : List Equation} {b : Bindings}
      {r : Option Bindings} :
      v ≠ w → ¬ b.IsBound v → b.Binds w u → Unified ((.var v, u) :: es) b r →
      Unified ((.var v, .var w) :: es) b r
  | bind {v : Variable} {t : Term} {es : List Equation} {b : Bindings} {r : Option Bindings} :
      t ≠ .var v → ¬ b.IsBound v → (∀ w, t = .var w → ¬ b.IsBound w) →
      (∀ f ts, t = .app f ts → occursIn (.ofVariable v) (.term t) b = .ok false) →
      Unified es (b.bind v t) r → Unified ((.var v, t) :: es) b r
  -- no binding is made that would have a variable in its own full value
  | occurs {v : Variable} {f : Value} {ts : List Term} {es : List Equation} {b : Bindings} :
      ¬ b.IsBound v → occursIn (.ofVariable v) (.term (.app f ts)) b = .ok true →
      Unified ((.var v, .app f ts) :: es) b none
  | decompose {f g : Value} {ts us : List Term} {es : List Equation} {b : Bindings}
      {r : Option Bindings} :
      f.equals g = true → ts.length = us.length → Unified (ts.zip us ++ es) b r →
      Unified ((.app f ts, .app g us) :: es) b r
  | clash {t u : Term} {es : List Equation} {b : Bindings} :
      Clash t u → Unified ((t, u) :: es) b none

variable {p : Criterion} {es ds : List Equation} {b c : Bindings} {r : Option Bindings}
variable {σ : Assignment} {t u : Term} {v : Variable}

/-- An assignment makes the sides of every equation alike. -/
def Equalizes (σ : Assignment) (es : List Equation) : Prop :=
  ∀ e ∈ es, Term.Alike (e.1.instantiate σ) (e.2.instantiate σ)

theorem equalizes_cons : Equalizes σ ((t, u) :: es) ↔
    Term.Alike (t.instantiate σ) (u.instantiate σ) ∧ Equalizes σ es :=
  List.forall_mem_cons

theorem equalizes_append : Equalizes σ (es ++ ds) ↔ Equalizes σ es ∧ Equalizes σ ds :=
  List.forall_mem_append

theorem equalizes_zip {ts us : List Term} (hl : ts.length = us.length) :
    Equalizes σ (ts.zip us) ↔
      List.Forall₂ Term.Alike (ts.map (Term.instantiate σ)) (us.map (Term.instantiate σ)) := by
  rw [List.forall₂_map_left_iff, List.forall₂_map_right_iff, List.forall₂_iff_zip]
  constructor
  · intro h
    exact ⟨hl, fun {t u} htu => h (t, u) htu⟩
  · rintro ⟨-, h⟩ ⟨t, u⟩ htu
    exact h htu

/-! ### Problems of regular terms -/

/-- The equations and the environment are made of terms that meet a criterion by
which variables are regular. -/
structure Posed (p : Criterion) (es : List Equation) (b : Bindings) : Prop where
  var : ∀ v, p.var v = true → v.isRegular = true
  sides : ∀ e ∈ es, e.1.meets p = true ∧ e.2.meets p = true
  env : b.Meets p

namespace Posed

theorem left (h : Posed p ((t, u) :: es) b) : t.meets p = true := (h.sides (t, u) (by simp)).1

theorem right (h : Posed p ((t, u) :: es) b) : u.meets p = true := (h.sides (t, u) (by simp)).2

theorem named (h : Posed p es b) : p.Named := ⟨h.var⟩

theorem isRegular (h : Posed p ((.var v, u) :: es) b) : v.isRegular = true := h.var v h.left

theorem tail {e : Equation} (h : Posed p (e :: es) b) : Posed p es b :=
  ⟨h.var, (List.forall_mem_cons.1 h.sides).2, h.env⟩

theorem cons (h : Posed p es b) (ht : t.meets p = true) (hu : u.meets p = true) :
    Posed p ((t, u) :: es) b :=
  ⟨h.var, List.forall_mem_cons.2 ⟨⟨ht, hu⟩, h.sides⟩, h.env⟩

theorem turn (h : Posed p ((t, u) :: es) b) : Posed p ((u, t) :: es) b :=
  h.tail.cons h.right h.left

theorem follow (h : Posed p ((.var v, t) :: es) b) (hu : b.Binds v u) :
    Posed p ((t, u) :: es) b :=
  h.tail.cons h.right (h.env.meets hu)

theorem followRight {w : Variable} (h : Posed p ((t, .var w) :: es) b) (hu : b.Binds w u) :
    Posed p ((t, u) :: es) b :=
  h.tail.cons h.left (h.env.meets hu)

theorem bind (h : Posed p ((.var v, t) :: es) b) (hv : ¬ b.IsBound v) :
    Posed p es (b.bind v t) :=
  ⟨h.var, h.tail.sides, h.env.bind h.isRegular h.right hv⟩

theorem decompose {f g : Value} {ts us : List Term}
    (h : Posed p ((.app f ts, .app g us) :: es) b) : Posed p (ts.zip us ++ es) b := by
  refine ⟨h.var, List.forall_mem_append.2 ⟨?_, h.tail.sides⟩, h.env⟩
  rintro ⟨t, u⟩ htu
  exact ⟨(Term.meets_app_iff.1 h.left).2 t (List.of_mem_zip htu).1,
    (Term.meets_app_iff.1 h.right).2 u (List.of_mem_zip htu).2⟩

theorem single (hvar : ∀ v, p.var v = true → v.isRegular = true) (ht : t.meets p = true)
    (hu : u.meets p = true) (hb : b.Meets p) : Posed p [(t, u)] b :=
  cons ⟨hvar, by simp, hb⟩ ht hu

theorem regular (h : Posed .definite es b) : Posed .regular es b :=
  ⟨fun _ h => h, fun e he => ⟨Term.meets_regular_of_definite (h.sides e he).1,
    Term.meets_regular_of_definite (h.sides e he).2⟩, h.env.regular⟩

end Posed

theorem equals_label_self {f : Value} (hf : f.isString = true) : f.equals f = true := by
  cases f <;> simp_all [Value.isString, Value.string?]

namespace Unified

/-! ### What a derivation binds -/

theorem isPrefix (h : Unified es b r) (hr : r = some c) : b.entries <+: c.entries := by
  induction h with
  | done =>
    obtain rfl := Option.some.inj hr
    exact List.prefix_rfl
  | bind _ _ _ _ _ ih => exact (List.prefix_append _ _).trans (ih hr)
  | symbol _ _ ih | turn _ _ ih | same _ ih | follow _ _ _ ih | followRight _ _ _ _ ih
  | decompose _ _ _ ih => exact ih hr
  | occurs | clash => cases hr

/-- Whatever holds of the terms of the equations and of the environment, and passes
from function terms to their arguments, holds of all that is bound in the end. -/
theorem binds_of_closed (h : Unified es b r) (hr : r = some c) {T : Term → Prop}
    (hsub : ∀ f ts, T (.app f ts) → ∀ t ∈ ts, T t) (hes : ∀ e ∈ es, T e.1 ∧ T e.2)
    (hb : ∀ v t, b.Binds v t → T (.var v) ∧ T t) :
    ∀ v t, c.Binds v t → T (.var v) ∧ T t := by
  induction h with
  | done =>
    obtain rfl := Option.some.inj hr
    exact hb
  | symbol _ _ ih | same _ ih => exact ih hr (List.forall_mem_cons.1 hes).2 hb
  | turn _ _ ih =>
    obtain ⟨ht, hes⟩ := List.forall_mem_cons.1 hes
    exact ih hr (List.forall_mem_cons.2 ⟨ht.symm, hes⟩) hb
  | follow _ hu _ ih =>
    obtain ⟨ht, hes⟩ := List.forall_mem_cons.1 hes
    exact ih hr (List.forall_mem_cons.2 ⟨⟨ht.2, (hb _ _ hu).2⟩, hes⟩) hb
  | followRight _ _ hu _ ih =>
    obtain ⟨ht, hes⟩ := List.forall_mem_cons.1 hes
    exact ih hr (List.forall_mem_cons.2 ⟨⟨ht.1, (hb _ _ hu).2⟩, hes⟩) hb
  | bind _ _ _ _ _ ih =>
    obtain ⟨ht, hes⟩ := List.forall_mem_cons.1 hes
    -- the only rule that adds a binding, and it adds one side of the equation to the other
    refine ih hr hes fun w u hw => ?_
    rcases Bindings.binds_bind_iff.1 hw with hw | ⟨rfl, rfl⟩
    · exact hb w u hw
    · exact ht
  | @decompose f g ts us es b r _ _ _ ih =>
    obtain ⟨ht, hes⟩ := List.forall_mem_cons.1 hes
    refine ih hr (List.forall_mem_append.2 ⟨?_, hes⟩) hb
    rintro ⟨t, u⟩ htu
    exact ⟨hsub f ts ht.1 t (List.of_mem_zip htu).1, hsub g us ht.2 u (List.of_mem_zip htu).2⟩
  | occurs | clash => cases hr

theorem meets (h : Unified es b r) (hr : r = some c) (hp : Posed p es b) : c.Meets p := by
  induction h with
  | done =>
    obtain rfl := Option.some.inj hr
    exact hp.env
  | symbol _ _ ih | same _ ih => exact ih hr hp.tail
  | turn _ _ ih => exact ih hr hp.turn
  | follow _ hu _ ih => exact ih hr (hp.follow hu)
  | followRight _ _ hu _ ih => exact ih hr (hp.followRight hu)
  | bind _ hv _ _ _ ih => exact ih hr (hp.bind hv)
  | decompose _ _ _ ih => exact ih hr hp.decompose
  | occurs | clash => cases hr

/-! ### The occurs check -/

/-- The occurs check succeeds, and looks for the variable in the full value of the
term. -/
theorem occursIn_eq_ok [p.Named] (hac : b.Acyclic) (hb : b.Meets p) (hv : v.isRegular = true)
    (ht : t.meets p = true) : ∃ found, occursIn (.ofVariable v) (.term t) b = .ok found ∧
      (found = true ↔ v ∈ (t.instantiate b.solution).occurrences) := by
  have hreg : ∀ w ∈ (t.instantiate b.solution).occurrences, w.isRegular = true := by
    intro w hw
    obtain ⟨x, hx, hw⟩ := Term.mem_occurrences_instantiate.1 hw
    exact hac.isRegular_of_mem_solution hb (Term.isRegular_of_mem_occurrences ht hx) hw
  have hhash : (t.instantiate b.solution).occurrences.all Variable.isHashable = true :=
    List.all_eq_true.2 fun w hw => Variable.isHashable_of_isRegular (hreg w hw)
  refine ⟨(Variable.distinct (t.instantiate b.solution).occurrences).any
    fun w => Item.ofVariable v == .ofVariable w, ?_, ?_⟩
  · have hvars : (Item.term (t.instantiate b.solution)).checkedVariables =
        .ok (Variable.distinct (t.instantiate b.solution).occurrences) := if_pos hhash
    rw [occursIn, hac.substitute_term hb ht, ok_bind, hvars, ok_bind,
      if_pos (Bindings.isHashable_ofVariable hv)]
    rfl
  · rw [List.any_eq_true, ← Variable.mem_distinct_iff hreg]
    constructor
    · rintro ⟨w, hw, hvw⟩
      have hw' := hreg w ((Variable.mem_distinct_iff hreg).1 hw)
      rwa [(Variable.beq_iff_eq_of_isRegular hv hw').1 hvw]
    · intro h
      exact ⟨v, h, (Variable.beq_iff_eq_of_isRegular hv hv).2 rfl⟩

/-- Two occurs checks have one answer if both variables occur in the full values or neither
does. -/
theorem occursIn_congr {q : Criterion} [p.Named] [q.Named] {w : Variable} (hac : b.Acyclic)
    (hb : b.Meets p) (hv : v.isRegular = true) (ht : t.meets p = true) (hacc : c.Acyclic)
    (hc : c.Meets q) (hw : w.isRegular = true) (hu : u.meets q = true)
    (hiff : w ∈ (u.instantiate c.solution).occurrences ↔
      v ∈ (t.instantiate b.solution).occurrences) :
    occursIn (.ofVariable w) (.term u) c = occursIn (.ofVariable v) (.term t) b := by
  obtain ⟨found, h, hfound⟩ := occursIn_eq_ok hac hb hv ht
  obtain ⟨found', h', hfound'⟩ := occursIn_eq_ok hacc hc hw hu
  have hsame : found' = true ↔ found = true := hfound'.trans (hiff.trans hfound.symm)
  rw [h, h', Bool.eq_iff_iff.2 hsame]

/-- A variable that is bound does not occur in the full value of what it is bound to. -/
theorem not_occurs_of_bind (hac : b.Acyclic) (hp : Posed p ((.var v, t) :: es) b)
    (hne : t ≠ .var v) (hw : ∀ w, t = .var w → ¬ b.IsBound w)
    (hocc : ∀ f ts, t = .app f ts → occursIn (.ofVariable v) (.term t) b = .ok false) :
    v ∉ (t.instantiate b.solution).occurrences := by
  have := hp.named
  cases t with
  | var w =>
    rw [Term.instantiate_var, hac.solution_of_unbound hp.env (hp.turn.isRegular) (hw w rfl)]
    rintro h
    obtain rfl := List.mem_singleton.1 h
    exact hne rfl
  | const a => simp [Term.occurrences]
  | app f ts =>
    obtain ⟨found, h, hfound⟩ := occursIn_eq_ok hac hp.env hp.isRegular hp.right
    obtain rfl := Except.ok.inj (h.symm.trans (hocc f ts rfl))
    simpa using hfound

theorem acyclic (h : Unified es b r) (hr : r = some c) (hp : Posed p es b)
    (hac : b.Acyclic) : c.Acyclic := by
  have := hp.named
  induction h with
  | done =>
    obtain rfl := Option.some.inj hr
    exact hac
  | symbol _ _ ih | same _ ih => exact ih hr hp.tail hac
  | turn _ _ ih => exact ih hr hp.turn hac
  | follow _ hu _ ih => exact ih hr (hp.follow hu) hac
  | followRight _ _ hu _ ih => exact ih hr (hp.followRight hu) hac
  | bind hne hv hw hocc _ ih =>
    -- the occurs check is what is needed for one binding more
    exact ih hr (hp.bind hv)
      (hac.bind hp.env hv hp.right (not_occurs_of_bind hac hp hne hw hocc))
  | decompose _ _ _ ih => exact ih hr hp.decompose hac
  | occurs | clash => cases hr

/-! ### Solutions -/

/-- What solves the result solves the environment and the equations. -/
theorem sound (h : Unified es b r) (hr : r = some c) (hp : Posed .regular es b)
    (hσ : σ.Meets .regular) (hs : Solves σ c) : Solves σ b ∧ Equalizes σ es := by
  induction h with
  | done =>
    obtain rfl := Option.some.inj hr
    exact ⟨hs, by simp [Equalizes]⟩
  | symbol hac _ ih =>
    obtain ⟨hb, hes⟩ := ih hr hp.tail
    refine ⟨hb, equalizes_cons.2 ⟨?_, hes⟩⟩
    simpa using Term.alike_const_iff.2 ⟨_, rfl, .inr hac⟩
  | turn _ _ ih =>
    obtain ⟨hb, hes⟩ := ih hr hp.turn
    obtain ⟨htu, hes⟩ := equalizes_cons.1 hes
    refine ⟨hb, equalizes_cons.2 ⟨?_, hes⟩⟩
    exact Term.alike_symm (hσ.regular_instantiate hp.right) (hσ.regular_instantiate hp.left) htu
  | same _ ih =>
    obtain ⟨hb, hes⟩ := ih hr hp.tail
    exact ⟨hb, equalizes_cons.2 ⟨Term.alike_refl (hσ.regular_instantiate hp.left), hes⟩⟩
  | follow _ hu _ ih =>
    obtain ⟨hb, hes⟩ := ih hr (hp.follow hu)
    obtain ⟨htu, hes⟩ := equalizes_cons.1 hes
    have hur := hσ.regular_instantiate (hp.env.meets hu)
    have htr := hσ.regular_instantiate hp.right
    refine ⟨hb, equalizes_cons.2 ⟨?_, hes⟩⟩
    -- `v` is like what it is bound to, and that is like the other side
    exact Term.alike_trans (hσ _ hp.isRegular) hur (hb _ _ hu) (Term.alike_symm htr hur htu)
  | followRight _ _ hu _ ih =>
    obtain ⟨hb, hes⟩ := ih hr (hp.followRight hu)
    obtain ⟨hvu, hes⟩ := equalizes_cons.1 hes
    have hur := hσ.regular_instantiate (hp.env.meets hu)
    refine ⟨hb, equalizes_cons.2 ⟨?_, hes⟩⟩
    exact Term.alike_trans (hσ _ hp.isRegular) hur hvu
      (Term.alike_symm (hσ _ hp.turn.isRegular) hur (hb _ _ hu))
  | bind _ hv _ _ _ ih =>
    obtain ⟨hb, hes⟩ := ih hr (hp.bind hv)
    obtain ⟨hb, hvt⟩ := solves_bind_iff.1 hb
    exact ⟨hb, equalizes_cons.2 ⟨hvt, hes⟩⟩
  | @decompose f g ts us es b r hfg hl _ ih =>
    obtain ⟨hb, hes⟩ := ih hr hp.decompose
    obtain ⟨hargs, hes⟩ := equalizes_append.1 hes
    refine ⟨hb, equalizes_cons.2 ⟨?_, hes⟩⟩
    rw [Term.instantiate_app, Term.instantiate_app]
    exact Term.alike_app_iff.2 ⟨g, _, rfl, Value.alike_iff.2 (.inr hfg), (equalizes_zip hl).1 hargs⟩
  | occurs | clash => cases hr

/-- Terms that clash are not made alike, where no symbol is a NaN. -/
theorem not_alike_of_clash (h : Clash t u) (ht : t.meets .definite = true) :
    ¬ Term.Alike (t.instantiate σ) (u.instantiate σ) := by
  cases t with
  | var v => exact h.elim
  | const a =>
    cases u with
    | var v => exact h.elim
    | const c =>
      simp only [Term.meets, Criterion.definite, Bool.and_eq_true, Bool.not_eq_true'] at ht
      -- two NaNs may be alike and still fail to unify, so here none is allowed
      have hn := Value.isSameNaN_eq_false (b := c) ht.1 ht.2
      have hs : a.sameSymbol c = false := h
      rw [Term.instantiate_const, Term.instantiate_const, Term.alike_const_iff]
      rintro ⟨d, hd, hac⟩
      obtain rfl := Term.const.inj hd
      simp [hn, hs] at hac
    | app g us =>
      rw [Term.instantiate_const, Term.instantiate_app, Term.alike_const_iff]
      rintro ⟨d, hd, -⟩
      cases hd
  | app f ts =>
    cases u with
    | var v => exact h.elim
    | const c =>
      rw [Term.instantiate_const, Term.instantiate_app, Term.alike_app_iff]
      rintro ⟨g, us, hg, -⟩
      cases hg
    | app g us =>
      rw [Term.instantiate_app, Term.instantiate_app, Term.alike_app_iff]
      rintro ⟨g, us, hg, hfg, hus⟩
      obtain ⟨rfl, rfl⟩ := Term.app.inj hg
      rcases h with h | h
      · have hf := (Term.meets_app_iff.1 ht).1
        obtain rfl := Term.label_eq_of_alike hf hfg
        exact Bool.false_ne_true (h.symm.trans (equals_label_self hf))
      · exact h (by simpa using hus.length_eq)

/-- What solves the environment and the equations solves the result, which there is,
where no symbol is a NaN. -/
theorem complete (h : Unified es b r) (hp : Posed .definite es b) (hac : b.Acyclic)
    (hσ : σ.Meets .regular) (hs : Solves σ b) (he : Equalizes σ es) :
    ∃ c, r = some c ∧ Solves σ c := by
  induction h with
  | done => exact ⟨_, rfl, hs⟩
  | symbol _ _ ih | same _ ih => exact ih hp.tail hac hs (equalizes_cons.1 he).2
  | turn _ _ ih =>
    obtain ⟨htw, he⟩ := equalizes_cons.1 he
    have hr := hp.regular
    refine ih hp.turn hac hs (equalizes_cons.2 ⟨?_, he⟩)
    exact Term.alike_symm (hσ.regular_instantiate hr.left) (hσ.regular_instantiate hr.right) htw
  | follow _ hu _ ih =>
    obtain ⟨hvt, he⟩ := equalizes_cons.1 he
    have hr := hp.regular
    have hv := hσ _ hr.isRegular
    have htr := hσ.regular_instantiate hr.right
    refine ih (hp.follow hu) hac hs (equalizes_cons.2 ⟨?_, he⟩)
    exact Term.alike_trans htr hv (Term.alike_symm hv htr hvt) (hs _ _ hu)
  | followRight _ _ hu _ ih =>
    obtain ⟨hvw, he⟩ := equalizes_cons.1 he
    have hr := hp.regular
    refine ih (hp.followRight hu) hac hs (equalizes_cons.2 ⟨?_, he⟩)
    exact Term.alike_trans (hσ _ hr.isRegular) (hσ _ hr.turn.isRegular) hvw (hs _ _ hu)
  | bind hne hv hw hocc _ ih =>
    obtain ⟨hvt, he⟩ := equalizes_cons.1 he
    have hr := hp.regular
    exact ih (hp.bind hv) (hac.bind hr.env hv hr.right (not_occurs_of_bind hac hr hne hw hocc))
      (solves_bind_iff.2 ⟨hs, hvt⟩) he
  | occurs hv hocc =>
    obtain ⟨hvt, -⟩ := equalizes_cons.1 he
    have hr := hp.regular
    -- the left side would be as high as the right side, which it is a proper part of
    obtain ⟨found, h, hfound⟩ := occursIn_eq_ok hac hr.env hr.isRegular hr.right
    obtain rfl := Except.ok.inj (h.symm.trans hocc)
    exact absurd hvt
      (hs.not_alike_of_occurs hac hr.env hσ hr.isRegular hr.right (hfound.1 rfl))
  | @decompose f g ts us es b r hfg hl _ ih =>
    obtain ⟨hfg, he⟩ := equalizes_cons.1 he
    refine ih hp.decompose hac hs (equalizes_append.2 ⟨(equalizes_zip hl).2 ?_, he⟩)
    rw [Term.instantiate_app, Term.instantiate_app, Term.alike_app_iff] at hfg
    obtain ⟨g, us, hg, -, hus⟩ := hfg
    obtain ⟨rfl, rfl⟩ := Term.app.inj hg
    exact hus
  | clash h => exact absurd (equalizes_cons.1 he).1 (not_alike_of_clash h hp.left)

end Unified

/-! ### The algorithm derives its answers -/

/-- Whatever other equations follow, the equations `ds` come to `r`. -/
def Leads (ds : List Equation) (b : Bindings) : Option Bindings → Prop
  | none => ∀ es, Unified (ds ++ es) b none
  | some c => ∀ es r, Unified es c r → Unified (ds ++ es) b r

theorem Leads.unified (h : Leads ds b r) : Unified ds b r := by
  cases r with
  | none => simpa using h []
  | some c => simpa using h [] (some c) .done

/-- A rule of derivations leads from its conclusion where it leads from its premise. -/
theorem Leads.of_rule {ds' : List Equation} {b' : Bindings} (h : Leads ds' b' r)
    (rule : ∀ es r, Unified (ds' ++ es) b' r → Unified (ds ++ es) b r) : Leads ds b r := by
  cases r with
  | none => exact fun es => rule es none (h es)
  | some c => exact fun es r hr => rule es r (h es r hr)

theorem Leads.append (h : Leads ds b (some c)) (h' : Leads es c r) : Leads (ds ++ es) b r := by
  cases r with
  | none =>
    intro es'
    rw [List.append_assoc]
    exact h _ none (h' es')
  | some d =>
    intro es' r' hr'
    rw [List.append_assoc]
    exact h _ r' (h' es' r' hr')

/-- A unifier whose answers about two terms are derived. -/
def Derives (p : Criterion) (unifier : Unifier) : Prop := ∀ t u b r, Posed p [(t, u)] b →
  unifier (.term t) (.term u) b = .ok r → Leads [(t, u)] b r

theorem ofVariable_beq_iff [p.Named] (hv : v.isRegular = true) (ht : t.meets p = true) :
    (Item.ofVariable v == Item.term t) = true ↔ t = .var v := by
  show Item.equals (.term (.var v)) (.term t) = true ↔ _
  rw [← Term.alike_var_iff hv ht, Item.equals, Term.Alike, Term.isSameNaN, Bool.false_or]
  · rfl
  · simp

theorem bindUnbound_leads (hp : Posed p [(.var v, t)] b) (hne : t ≠ .var v)
    (hv : ¬ b.IsBound v) (hw : ∀ w, t = .var w → ¬ b.IsBound w)
    (h : bindUnbound v (.term t) b = .ok r) : Leads [(.var v, t)] b r := by
  have hext := hp.env.extend_eq (t := t) hp.isRegular hv
  -- only function terms are searched for the variable
  by_cases happ : ∃ f ts, t = .app f ts
  · obtain ⟨f, ts, rfl⟩ := happ
    rw [bindUnbound] at h
    rcases e : occursIn (.ofVariable v) (.term (.app f ts)) b with _ | found
    · simp [e] at h
    · rw [e] at h
      cases found with
      | false =>
        obtain rfl : some (b.bind v (.app f ts)) = r := by simpa [hext, Except.map] using h
        exact fun es r hr => .bind hne hv hw (fun g us hg => hg ▸ e) hr
      | true =>
        obtain rfl := Except.ok.inj h
        exact fun es => .occurs hv e
  · have hb : bindUnbound v (.term t) b = (b.extend (.ofVariable v) (.term t)).map some := by
      cases t with
      | app f ts => exact absurd ⟨f, ts, rfl⟩ happ
      | _ => rfl
    obtain rfl : some (b.bind v t) = r := by simpa [hb, hext, Except.map] using h
    exact fun es r hr => .bind hne hv hw (fun f ts hf => absurd ⟨f, ts, hf⟩ happ) hr

theorem unifyVariable_leads {unifier : Unifier} (ih : Derives p unifier)
    (hp : Posed p [(.var v, t)] b) (h : unifyVariable unifier v (.term t) b = .ok r) :
    Leads [(.var v, t)] b r := by
  have := hp.named
  unfold unifyVariable at h
  by_cases hvt : t = .var v
  · subst hvt
    rw [if_pos ((ofVariable_beq_iff hp.isRegular hp.right).2 rfl)] at h
    obtain rfl := Except.ok.inj h
    exact fun es r hr => .same hr
  · rw [if_neg (mt (ofVariable_beq_iff hp.isRegular hp.right).1 hvt)] at h
    by_cases hv : b.IsBound v
    · obtain ⟨u, hu⟩ := hv
      rw [hp.env.lookup_of_binds hu] at h
      exact (ih t u b r (hp.follow hu) h).of_rule fun es r => .follow hvt hu
    · rw [hp.env.lookup_of_unbound hp.isRegular hv] at h
      cases t with
      | var w =>
        by_cases hw : b.IsBound w
        · obtain ⟨u, hu⟩ := hw
          simp only [hp.env.lookup_of_binds hu] at h
          have hvw : v ≠ w := fun e => hvt (by rw [e])
          exact (ih (.var v) u b r (hp.followRight hu) h).of_rule
            fun es r => .followRight hvw hv hu
        · simp only [hp.env.lookup_of_unbound hp.turn.isRegular hw] at h
          exact bindUnbound_leads hp hvt hv (fun x hx => Term.var.inj hx ▸ hw) h
      | const a => exact bindUnbound_leads hp hvt hv (by simp) h
      | app f ts => exact bindUnbound_leads hp hvt hv (by simp) h

/-- Lists of one length lead where their equations lead; others fail. -/
theorem unifyEach_leads [hn : p.Named] {unifier : Unifier} (ih : Derives p unifier)
    {ts us : List Term} (hts : ∀ t ∈ ts, t.meets p = true) (hus : ∀ u ∈ us, u.meets p = true)
    (hb : b.Meets p)
    (h : unifyEach unifier (ts.map .term) (us.map .term) b = .ok r) :
    (ts.length = us.length ∧ Leads (ts.zip us) b r) ∨ (ts.length ≠ us.length ∧ r = none) := by
  -- each pair is unified under the environment that the pairs before it have left
  induction ts generalizing us b with
  | nil =>
    cases us with
    | nil =>
      obtain rfl := Except.ok.inj h
      exact .inl ⟨rfl, fun es r hr => hr⟩
    | cons u us =>
      obtain rfl := Except.ok.inj h
      exact .inr ⟨by simp, rfl⟩
  | cons t ts ihts =>
    cases us with
    | nil =>
      obtain rfl := Except.ok.inj h
      exact .inr ⟨by simp, rfl⟩
    | cons u us =>
      obtain ⟨ht, hts⟩ := List.forall_mem_cons.1 hts
      obtain ⟨hu, hus⟩ := List.forall_mem_cons.1 hus
      have hp : Posed p [(t, u)] b := .single hn.isRegular ht hu hb
      rw [List.map_cons, List.map_cons, unifyEach] at h
      rcases e : unifier (.term t) (.term u) b with _ | - | c
      · simp [e] at h
      · -- the first pair fails, and with it the whole list
        obtain rfl : none = r := by simpa [e] using h
        by_cases hl : ts.length = us.length
        · refine .inl ⟨by simp [hl], fun es => ?_⟩
          exact ih t u b none hp e (ts.zip us ++ es)
        · exact .inr ⟨by simpa using hl, rfl⟩
      · rw [e] at h
        have hfirst := ih t u b (some c) hp e
        have hc := hfirst.unified.meets rfl hp
        rcases ihts hts hus hc h with ⟨hl, hrest⟩ | ⟨hl, rfl⟩
        · exact .inl ⟨by simp [hl], hfirst.append hrest⟩
        · exact .inr ⟨by simp [hl], rfl⟩

theorem derives_unifyWithin [p.Named] (depth : Nat) : Derives p (unifyWithin depth) := by
  induction depth with
  | zero => intro t u b r _ h; cases h
  | succ depth ih =>
    intro t u b r hp h
    cases t with
    | var v => exact unifyVariable_leads ih hp h
    | const a =>
      cases u with
      | var w =>
        -- the algorithm turns the equation as it hands it on
        exact (unifyVariable_leads ih hp.turn h).of_rule fun es r => .turn (by simp)
      | const c =>
        cases hac : a.sameSymbol c
        · obtain rfl : none = r := by simpa [unifyWithin, hac] using h
          exact fun es => .clash hac
        · obtain rfl : some b = r := by simpa [unifyWithin, hac] using h
          exact fun es r hr => .symbol hac hr
      | app g us =>
        obtain rfl : none = r := by simpa [unifyWithin] using h
        exact fun es => .clash trivial
    | app f ts =>
      cases u with
      | var w =>
        exact (unifyVariable_leads ih hp.turn h).of_rule fun es r => .turn (by simp)
      | const c =>
        obtain rfl : none = r := by simpa [unifyWithin] using h
        exact fun es => .clash trivial
      | app g us =>
        cases hfg : f.equals g
        · obtain rfl : none = r := by simpa [unifyWithin, hfg] using h
          exact fun es => .clash (.inl hfg)
        · have hts := (Term.meets_app_iff.1 hp.left).2
          have hus := (Term.meets_app_iff.1 hp.right).2
          have h' : unifyEach (unifyWithin depth) (ts.map .term) (us.map .term) b = .ok r := by
            simpa [unifyWithin, hfg] using h
          rcases unifyEach_leads ih hts hus hp.env h' with ⟨hl, hlead⟩ | ⟨hl, rfl⟩
          · exact hlead.of_rule fun es r => .decompose hfg hl
          · exact fun es => .clash (.inr hl)

/-! ### The operations

A list of terms is unified as the arguments of one function term are, and a literal
as the function term with its predicate. -/

section

variable [hn : p.Named]

theorem unifyTerms_unified (ht : t.meets p = true) (hu : u.meets p = true)
    (hb : b.Meets p) (h : unifyTerms (.term t) (.term u) b = .ok r) :
    Unified [(t, u)] b r :=
  (derives_unifyWithin _ t u b r (.single hn.isRegular ht hu hb) h).unified

theorem unifyLists_unified {f g : Value} (hfg : f.equals g = true) {ts us : List Term}
    (hts : ∀ t ∈ ts, t.meets p = true) (hus : ∀ u ∈ us, u.meets p = true)
    (hb : b.Meets p) (h : unifyLists (ts.map .term) (us.map .term) b = .ok r) :
    Unified [(.app f ts, .app g us)] b r := by
  rcases unifyEach_leads (derives_unifyWithin _) hts hus hb h with ⟨hl, hlead⟩ | ⟨hl, rfl⟩
  · refine .decompose hfg hl ?_
    rw [List.append_nil]
    exact hlead.unified
  · exact .clash (.inr hl)

theorem unifyLiterals_unified {l m : Literal} (hl : l.meets p = true)
    (hm : m.meets p = true) (hb : b.Meets p) (h : unifyLiterals l m b = .ok r) :
    Unified [(l.asTerm, m.asTerm)] b r := by
  rw [unifyLiterals] at h
  cases hfg : l.predicate.equals m.predicate
  · obtain rfl : none = r := by simpa [hfg] using h
    exact .clash (.inl hfg)
  · rw [if_pos hfg] at h
    exact unifyLists_unified hfg (Literal.meets_iff.1 hl).2 (Literal.meets_iff.1 hm).2 hb h

end

end HornSearch
