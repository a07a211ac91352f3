/-
HornSearch/Proofs/Instantiation.lean

Instances of terms, literals and rules.  An assignment gives a term for every
variable; `Term.instantiate` puts these terms in the places of the variables, once
and at once, so it says what a substitution is without any environment.

A criterion (`Criterion`) asks something of the variables, the symbols and the
labels of a term.  Three matter:

* `Criterion.loose`: variables have a string for a name and a whole number for a
  serial, and symbols, functors and predicates are anything;
* `Criterion.regular`: loose, symbols are proper values, functors and predicates are
  strings;
* `Criterion.definite`: regular, and no symbol is a NaN.

Looking variables up asks for no more than regular variables, which `Criterion.Named`
says of a criterion.

Replacing variables keeps any criterion that the replacements meet
(`meets_instantiate`), instances of instances are instances
(`instantiate_instantiate`), and the program's own way of replacing variables
instantiates (`bindM_eq_ok`, `rename_eq_instantiate`).
-/
import HornSearch.Clause
import HornSearch.Proofs.ValueEquality
import HornSearch.Proofs.Results

namespace HornSearch

/-- A term for every variable. -/
abbrev Assignment := Variable → Term

/-- Whether the value is a string. -/
def Value.isString (a : Value) : Bool := a.string?.isSome

/-- What is asked of the variables, of the symbols of constants, and of the functors
and predicates of a piece of syntax. -/
structure Criterion where
  var : Variable → Bool
  symbol : Value → Bool
  label : Value → Bool

namespace Criterion

/-- Names are strings and serials whole numbers. -/
def loose : Criterion := ⟨Variable.isRegular, fun _ => true, fun _ => true⟩

/-- Names are strings, serials whole numbers, functors and predicates strings, and
symbols proper values. -/
def regular : Criterion := ⟨Variable.isRegular, Value.isProper, Value.isString⟩

/-- Regular, and no symbol is a NaN. -/
def definite : Criterion :=
  ⟨Variable.isRegular, fun a => a.isProper && !a.isNaN, Value.isString⟩

/-- By the criterion, variables are regular. -/
class Named (p : Criterion) : Prop where
  isRegular : ∀ v, p.var v = true → v.isRegular = true

instance : Named loose := ⟨fun _ h => h⟩

instance : Named regular := ⟨fun _ h => h⟩

instance : Named definite := ⟨fun _ h => h⟩

end Criterion

namespace Term

variable {p q : Criterion} {σ τ : Assignment}

/-! ### Induction -/

/-- Induction over terms: a claim about a function term may use the claim about its
arguments. -/
theorem induct {P : Term → Prop} (var : ∀ v, P (.var v)) (const : ∀ a, P (.const a))
    (app : ∀ f ts, (∀ t ∈ ts, P t) → P (.app f ts)) : ∀ t, P t := by
  refine @Term.rec P (fun ts => ∀ t ∈ ts, P t) var const app ?_ ?_
  · simp
  · intro t ts ht hts
    exact List.forall_mem_cons.2 ⟨ht, hts⟩

/-! ### Criteria -/

mutual

/-- Whether every part of the term meets the criterion. -/
def meets (p : Criterion) : Term → Bool
  | .var v => p.var v
  | .const a => p.symbol a
  | .app f ts => p.label f && meetsList p ts

/-- Whether every part of each of the terms meets the criterion. -/
def meetsList (p : Criterion) : List Term → Bool
  | [] => true
  | t :: ts => meets p t && meetsList p ts

end

theorem meetsList_iff {ts : List Term} :
    meetsList p ts = true ↔ ∀ t ∈ ts, t.meets p = true := by
  induction ts with
  | nil => simp [meetsList]
  | cons t ts ih => simp [meetsList, ih]

theorem meets_app_iff {f : Value} {ts : List Term} :
    (app f ts).meets p = true ↔ p.label f = true ∧ ∀ t ∈ ts, t.meets p = true := by
  simp [meets, meetsList_iff]

/-! ### Occurrences -/

theorem occurrencesList_eq (ts : List Term) : occurrencesList ts = ts.flatMap occurrences := by
  induction ts with
  | nil => rfl
  | cons t ts ih => simp [occurrencesList, ih]

theorem mem_occurrences_app {f : Value} {ts : List Term} {v : Variable} :
    v ∈ (app f ts).occurrences ↔ ∃ t ∈ ts, v ∈ t.occurrences := by
  simp [occurrences, occurrencesList_eq]

theorem meets_of_imp {t : Term} (hv : ∀ v ∈ t.occurrences, p.var v = true → q.var v = true)
    (hs : ∀ a, p.symbol a = true → q.symbol a = true)
    (hl : ∀ f, p.label f = true → q.label f = true) (h : t.meets p = true) :
    t.meets q = true := by
  induction t using induct with
  | var v => exact hv v List.mem_cons_self h
  | const a => exact hs a h
  | app f ts ih =>
    rw [meets_app_iff] at h ⊢
    exact ⟨hl f h.1, fun t ht => ih t ht (fun v hvt => hv v (mem_occurrences_app.2 ⟨t, ht, hvt⟩))
      (h.2 t ht)⟩

theorem meets_loose [hp : p.Named] {t : Term} (h : t.meets p = true) : t.meets .loose = true :=
  meets_of_imp (fun v _ => hp.isRegular v) (fun _ _ => rfl) (fun _ _ => rfl) h

theorem meets_regular_of_definite {t : Term} (h : t.meets .definite = true) :
    t.meets .regular = true :=
  meets_of_imp (p := .definite) (fun _ _ h => h)
    (fun a h => by simp_all [Criterion.definite, Criterion.regular]) (fun _ h => h) h

theorem var_of_mem_occurrences {t : Term} (h : t.meets p = true) {v : Variable}
    (hv : v ∈ t.occurrences) : p.var v = true := by
  induction t using induct with
  | var w =>
    obtain rfl := List.mem_singleton.1 hv
    exact h
  | const a => simp [occurrences] at hv
  | app f ts ih =>
    obtain ⟨t, ht, hvt⟩ := mem_occurrences_app.1 hv
    exact ih t ht ((meets_app_iff.1 h).2 t ht) hvt

theorem isRegular_of_mem_occurrences [p.Named] {t : Term} (h : t.meets p = true) {v : Variable}
    (hv : v ∈ t.occurrences) : v.isRegular = true :=
  Criterion.Named.isRegular v (var_of_mem_occurrences h hv)

theorem isGroundList_iff {ts : List Term} :
    isGroundList ts = true ↔ ∀ t ∈ ts, t.isGround = true := by
  induction ts with
  | nil => simp [isGroundList]
  | cons t ts ih => simp [isGroundList, ih]

theorem isGround_iff {t : Term} : t.isGround = true ↔ t.occurrences = [] := by
  induction t using induct with
  | var v => simp [isGround, occurrences]
  | const a => simp [isGround, occurrences]
  | app f ts ih =>
    simp only [isGround, isGroundList_iff, occurrences, occurrencesList_eq,
      List.flatMap_eq_nil_iff]
    exact forall₂_congr ih

theorem heightList_le_iff {ts : List Term} {n : Nat} :
    heightList ts ≤ n ↔ ∀ t ∈ ts, t.height ≤ n := by
  induction ts with
  | nil => simp [heightList]
  | cons t ts ih => rw [heightList, Nat.max_le, ih, List.forall_mem_cons]

/-! ### Instances -/

mutual

/-- Puts the terms of an assignment in the places of the variables. -/
def instantiate (σ : Assignment) : Term → Term
  | .var v => σ v
  | .const a => .const a
  | .app f ts => .app f (instantiateList σ ts)

/-- Instantiates the terms of a list. -/
def instantiateList (σ : Assignment) : List Term → List Term
  | [] => []
  | t :: ts => instantiate σ t :: instantiateList σ ts

end

theorem instantiateList_eq (ts : List Term) : instantiateList σ ts = ts.map (instantiate σ) := by
  induction ts with
  | nil => rfl
  | cons t ts ih => simp [instantiateList, ih]

@[simp] theorem instantiate_var (v : Variable) : (var v).instantiate σ = σ v := by
  simp [instantiate]

@[simp] theorem instantiate_const (a : Value) : (const a).instantiate σ = const a := by
  simp [instantiate]

@[simp] theorem instantiate_app (f : Value) (ts : List Term) :
    (app f ts).instantiate σ = app f (ts.map (instantiate σ)) := by
  simp [instantiate, instantiateList_eq]

theorem instantiate_congr {t : Term} (h : ∀ v ∈ t.occurrences, σ v = τ v) :
    t.instantiate σ = t.instantiate τ := by
  induction t using induct with
  | var v => exact h v (by simp [occurrences])
  | const a => simp
  | app f ts ih =>
    simp only [instantiate_app, app.injEq, true_and]
    refine List.map_congr_left fun t ht => ih t ht fun v hv => ?_
    exact h v (mem_occurrences_app.2 ⟨t, ht, hv⟩)

theorem instantiate_id (t : Term) : t.instantiate Term.var = t := by
  induction t using induct with
  | var v => simp
  | const a => simp
  | app f ts ih =>
    rw [instantiate_app, List.map_congr_left ih, List.map_id']

theorem instantiate_instantiate (t : Term) :
    (t.instantiate σ).instantiate τ = t.instantiate fun v => (σ v).instantiate τ := by
  induction t using induct with
  | var v => simp
  | const a => simp
  | app f ts ih => simpa using ih

theorem mem_occurrences_instantiate {t : Term} {w : Variable} :
    w ∈ (t.instantiate σ).occurrences ↔ ∃ v ∈ t.occurrences, w ∈ (σ v).occurrences := by
  induction t using induct with
  | var v => simp [occurrences]
  | const a => simp [occurrences]
  | app f ts ih =>
    simp only [instantiate_app, mem_occurrences_app, List.mem_map]
    constructor
    · rintro ⟨-, ⟨t, ht, rfl⟩, hw⟩
      obtain ⟨v, hv, hwv⟩ := (ih t ht).1 hw
      exact ⟨v, ⟨t, ht, hv⟩, hwv⟩
    · rintro ⟨v, ⟨t, ht, hv⟩, hwv⟩
      exact ⟨_, ⟨t, ht, rfl⟩, (ih t ht).2 ⟨v, hv, hwv⟩⟩

/-- An instance meets a criterion if the term does and what is put in it does. -/
theorem meets_instantiate {t : Term} (ht : t.meets p = true)
    (hσ : ∀ v ∈ t.occurrences, (σ v).meets p = true) : (t.instantiate σ).meets p = true := by
  induction t using induct with
  | var v => exact hσ v (by simp [occurrences])
  | const a => exact ht
  | app f ts ih =>
    rw [meets_app_iff] at ht
    rw [instantiate_app, meets_app_iff]
    refine ⟨ht.1, List.forall_mem_map.2 fun t h => ih t h (ht.2 t h) fun v hv => ?_⟩
    exact hσ v (mem_occurrences_app.2 ⟨t, h, hv⟩)

/-- What is put in the place of a variable meets what the instance meets. -/
theorem meets_of_meets_instantiate {t : Term} (h : (t.instantiate σ).meets p = true)
    {v : Variable} (hv : v ∈ t.occurrences) : (σ v).meets p = true := by
  induction t using induct with
  | var w =>
    obtain rfl := List.mem_singleton.1 hv
    simpa using h
  | const a => simp [occurrences] at hv
  | app f ts ih =>
    obtain ⟨t, ht, hvt⟩ := mem_occurrences_app.1 hv
    rw [instantiate_app, meets_app_iff, List.forall_mem_map] at h
    exact ih t ht (h.2 t ht) hvt

theorem eq_var_of_instantiate {t : Term} {v : Variable} (h : t.instantiate σ = .var v) :
    ∃ w, t = .var w ∧ σ w = .var v := by
  cases t with
  | var w =>
    rw [instantiate_var] at h
    exact ⟨w, rfl, h⟩
  | const a => simp at h
  | app f ts => simp at h

theorem instantiate_of_isGround {t : Term} (h : t.isGround = true) : t.instantiate σ = t := by
  rw [isGround_iff] at h
  exact (instantiate_congr (τ := Term.var) (by simp [h])).trans (instantiate_id t)

theorem height_lt_app {f : Value} {ts : List Term} {t : Term} (h : t ∈ ts) :
    t.height < (app f ts).height :=
  Nat.lt_succ_of_le (heightList_le_iff.1 (Nat.le_refl _) t h)

/-- What is put in the place of a variable is no higher than the instance. -/
theorem height_le_instantiate {t : Term} {v : Variable} (hv : v ∈ t.occurrences) :
    (σ v).height ≤ (t.instantiate σ).height := by
  induction t using induct with
  | var w =>
    obtain rfl := List.mem_singleton.1 hv
    exact Nat.le_of_eq (by rw [instantiate_var])
  | const a => simp [occurrences] at hv
  | app f ts ih =>
    obtain ⟨t, ht, hvt⟩ := mem_occurrences_app.1 hv
    rw [instantiate_app]
    exact Nat.le_trans (ih t ht hvt) (Nat.le_of_lt (height_lt_app (List.mem_map_of_mem ht)))

theorem renameList_eq (f : Variable → Variable) (ts : List Term) :
    renameList f ts = ts.map (rename f) := by
  induction ts with
  | nil => rfl
  | cons t ts ih => simp [renameList, ih]

/-- Renaming is instantiation by variables. -/
theorem rename_eq_instantiate (f : Variable → Variable) (t : Term) :
    t.rename f = t.instantiate fun v => .var (f v) := by
  induction t using induct with
  | var v => simp [rename]
  | const a => simp [rename]
  | app g ts ih => simp [rename, renameList_eq, List.map_congr_left ih]

/-- Where replacing succeeds at each variable, the result is the instance. -/
theorem bindM_eq_ok {ε : Type} {f : Variable → Except ε Term} {t : Term}
    (h : ∀ v ∈ t.occurrences, f v = .ok (σ v)) : t.bindM f = .ok (t.instantiate σ) := by
  induction t using induct with
  | var v => simpa [bindM, occurrences] using h v
  | const a => simp [bindM]
  | app g ts ih =>
    have hlist : ∀ us : List Term, (∀ t ∈ us, t ∈ ts) →
        bindMList f us = .ok (us.map (instantiate σ)) := by
      intro us hus
      induction us with
      | nil => rfl
      | cons u us ihu =>
        obtain ⟨hu, hus⟩ := List.forall_mem_cons.1 hus
        rw [bindMList, ih u hu fun v hv => h v (mem_occurrences_app.2 ⟨u, hu, hv⟩), ihu hus]
        rfl
    simp [bindM, hlist ts fun _ h => h]

end Term

/-! ### Literals and rules

A literal has the parts of a function term whose functor is its predicate, so what
holds of instances of terms holds of instances of literals. -/

namespace Literal

variable {p : Criterion} {σ τ : Assignment} {l : Literal}

/-- The function term with the parts of the literal. -/
def asTerm (l : Literal) : Term := .app l.predicate l.args

/-- Whether every part of the literal meets the criterion. -/
def meets (p : Criterion) (l : Literal) : Bool := l.asTerm.meets p

/-- Puts the terms of an assignment in the places of the variables. -/
def instantiate (σ : Assignment) (l : Literal) : Literal :=
  ⟨l.predicate, l.args.map (Term.instantiate σ)⟩

theorem asTerm_injective : Function.Injective asTerm := by
  rintro ⟨f, ts⟩ ⟨g, us⟩ h
  obtain ⟨rfl, rfl⟩ := Term.app.inj h
  rfl

theorem meets_iff : l.meets p = true ↔ p.label l.predicate = true ∧
    ∀ t ∈ l.args, t.meets p = true :=
  Term.meets_app_iff

theorem meets_regular_of_definite (h : l.meets .definite = true) : l.meets .regular = true :=
  Term.meets_regular_of_definite h

theorem occurrences_asTerm : l.asTerm.occurrences = l.occurrences := rfl

theorem asTerm_instantiate : (l.instantiate σ).asTerm = l.asTerm.instantiate σ := by
  simp [asTerm, instantiate]

theorem isGround_iff : l.isGround = true ↔ l.occurrences = [] :=
  Term.isGround_iff (t := l.asTerm)

theorem var_of_mem_occurrences (h : l.meets p = true) {v : Variable}
    (hv : v ∈ l.occurrences) : p.var v = true :=
  Term.var_of_mem_occurrences (t := l.asTerm) h hv

theorem meets_instantiate (hl : l.meets p = true)
    (hσ : ∀ v ∈ l.occurrences, (σ v).meets p = true) : (l.instantiate σ).meets p = true := by
  rw [meets, asTerm_instantiate]
  exact Term.meets_instantiate hl hσ

theorem meets_of_meets_instantiate (h : (l.instantiate σ).meets p = true) {v : Variable}
    (hv : v ∈ l.occurrences) : (σ v).meets p = true := by
  rw [meets, asTerm_instantiate] at h
  exact Term.meets_of_meets_instantiate (t := l.asTerm) h hv

theorem mem_occurrences_instantiate {w : Variable} :
    w ∈ (l.instantiate σ).occurrences ↔ ∃ v ∈ l.occurrences, w ∈ (σ v).occurrences := by
  rw [← occurrences_asTerm, asTerm_instantiate]
  exact Term.mem_occurrences_instantiate

theorem instantiate_congr (h : ∀ v ∈ l.occurrences, σ v = τ v) :
    l.instantiate σ = l.instantiate τ := by
  apply asTerm_injective
  rw [asTerm_instantiate, asTerm_instantiate]
  exact Term.instantiate_congr h

theorem instantiate_instantiate :
    (l.instantiate σ).instantiate τ = l.instantiate fun v => (σ v).instantiate τ := by
  apply asTerm_injective
  simp only [asTerm_instantiate]
  exact Term.instantiate_instantiate l.asTerm

theorem instantiate_of_isGround (h : l.isGround = true) : l.instantiate σ = l := by
  apply asTerm_injective
  rw [asTerm_instantiate]
  exact Term.instantiate_of_isGround (t := l.asTerm) h

theorem rename_eq_instantiate (f : Variable → Variable) :
    l.rename f = l.instantiate fun v => .var (f v) := by
  simp [rename, instantiate, Term.renameList_eq, Term.rename_eq_instantiate]

theorem bindM_eq_ok {ε : Type} {f : Variable → Except ε Term}
    (h : ∀ v ∈ l.occurrences, f v = .ok (σ v)) : l.bindM f = .ok (l.instantiate σ) := by
  have ht : l.asTerm.bindM f = .ok (l.asTerm.instantiate σ) := Term.bindM_eq_ok h
  rw [asTerm, Term.bindM, Term.instantiate_app] at ht
  rw [bindM]
  rcases e : Term.bindMList f l.args with _ | us
  · simp [e] at ht
  · rw [e] at ht
    obtain ⟨-, rfl⟩ := Term.app.inj (Except.ok.inj ht)
    rfl

end Literal

namespace Rule

variable {p : Criterion} {σ : Assignment} {r : Rule}

/-- Whether every part of the rule meets the criterion. -/
def meets (p : Criterion) (r : Rule) : Bool := r.head.meets p && r.body.all (Literal.meets p)

/-- Puts the terms of an assignment in the places of the variables. -/
def instantiate (σ : Assignment) (r : Rule) : Rule :=
  ⟨r.head.instantiate σ, r.body.map (Literal.instantiate σ)⟩

theorem meets_iff : r.meets p = true ↔ r.head.meets p = true ∧
    ∀ l ∈ r.body, l.meets p = true := by
  simp [meets]

theorem mem_occurrences {v : Variable} :
    v ∈ r.occurrences ↔ v ∈ r.head.occurrences ∨ ∃ l ∈ r.body, v ∈ l.occurrences := by
  simp [occurrences]

theorem rename_eq_instantiate (f : Variable → Variable) :
    r.rename f = r.instantiate fun v => .var (f v) := by
  simp [rename, instantiate, Literal.rename_eq_instantiate]

theorem mem_occurrences_rename {f : Variable → Variable} {v : Variable} :
    v ∈ (r.rename f).occurrences ↔ ∃ w ∈ r.occurrences, v = f w := by
  have hl : ∀ l : Literal, v ∈ (l.rename f).occurrences ↔ ∃ w ∈ l.occurrences, v = f w := by
    intro l
    rw [Literal.rename_eq_instantiate, Literal.mem_occurrences_instantiate]
    simp [Term.occurrences]
  simp only [mem_occurrences, rename, List.mem_map]
  constructor
  · rintro (h | ⟨-, ⟨l, hl', rfl⟩, h⟩)
    · obtain ⟨w, hw, rfl⟩ := (hl _).1 h
      exact ⟨w, .inl hw, rfl⟩
    · obtain ⟨w, hw, rfl⟩ := (hl _).1 h
      exact ⟨w, .inr ⟨l, hl', hw⟩, rfl⟩
  · rintro ⟨w, hw | ⟨l, hl', hw⟩, rfl⟩
    · exact .inl ((hl _).2 ⟨w, hw, rfl⟩)
    · exact .inr ⟨_, ⟨l, hl', rfl⟩, (hl _).2 ⟨w, hw, rfl⟩⟩

theorem var_of_mem_occurrences (h : r.meets p = true) {v : Variable}
    (hv : v ∈ r.occurrences) : p.var v = true := by
  rw [meets_iff] at h
  rcases mem_occurrences.1 hv with hv | ⟨l, hl, hv⟩
  · exact Literal.var_of_mem_occurrences h.1 hv
  · exact Literal.var_of_mem_occurrences (h.2 l hl) hv

theorem meets_instantiate (hr : r.meets p = true)
    (hσ : ∀ v ∈ r.occurrences, (σ v).meets p = true) : (r.instantiate σ).meets p = true := by
  rw [meets_iff] at hr ⊢
  refine ⟨Literal.meets_instantiate hr.1 fun v hv => hσ v (mem_occurrences.2 (.inl hv)),
    List.forall_mem_map.2 fun l hl => ?_⟩
  exact Literal.meets_instantiate (hr.2 l hl) fun v hv =>
    hσ v (mem_occurrences.2 (.inr ⟨l, hl, hv⟩))

end Rule

end HornSearch
