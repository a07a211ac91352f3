/-
HornSearch/Proofs/TermEquality.lean

Equality of terms.  `Term.Alike` is the equality of terms as arguments: equal, or
the same NaN as a constant.  On the regular terms it is an equivalence, and a
congruence for instantiation:

* `alike_refl`, `alike_symm`, `alike_trans`: the laws of an equivalence;
* `alike_instantiate`: instances of terms alike are alike;
* `alike_instantiate_of_alike`: so are instances under assignments alike;
* `beq_iff`: terms alike are equal, unless they are one NaN;
* `beq_iff_alike`: so where no symbol is a NaN, being alike is being equal;
* `beq_refl`, `beq_symm`, `beq_trans`, `beq_congr`: equality obeys the laws too, and only its
  reflexivity asks that no symbol is a NaN.

Literals are equal exactly if they have one predicate and arguments alike, so
equality of literals is `Term.Alike` of the corresponding function terms
(`Literal.beq_iff_alike`), NaN or not.
-/
import HornSearch.Proofs.Instantiation

namespace HornSearch

namespace Term

variable {σ τ : Assignment}

/-- Equality of terms as arguments: equal, or the same NaN. -/
def Alike (t u : Term) : Prop := (t.isSameNaN u || equals t u) = true

theorem alikeList_iff {ts us : List Term} :
    alikeList ts us = true ↔ List.Forall₂ Alike ts us := by
  induction ts generalizing us with
  | nil => cases us <;> simp [alikeList]
  | cons t ts ih => cases us <;> simp [alikeList, ih, Alike]

/-! ### What a term is like -/

theorem alike_var_iff {p : Criterion} [hp : p.Named] {v : Variable} {u : Term}
    (hv : v.isRegular = true) (hu : u.meets p = true) : Alike (.var v) u ↔ u = .var v := by
  cases u with
  | var w =>
    show (v == w) = true ↔ _
    rw [Variable.beq_iff_eq_of_isRegular hv (hp.isRegular w hu), var.injEq, eq_comm]
  | const a => simp [Alike, isSameNaN, equals]
  | app f ts => simp [Alike, isSameNaN, equals]

theorem alike_const_iff {a : Value} {u : Term} : Alike (.const a) u ↔
    ∃ c, u = .const c ∧ (a.isSameNaN c = true ∨ a.sameSymbol c = true) := by
  cases u <;> simp [Alike, isSameNaN, equals]

theorem alike_app_iff {f : Value} {ts : List Term} {u : Term} : Alike (.app f ts) u ↔
    ∃ g us, u = .app g us ∧ f.alike g = true ∧ List.Forall₂ Alike ts us := by
  cases u <;> simp [Alike, isSameNaN, equals, alikeList_iff]

/-- A string is like itself only. -/
theorem label_eq_of_alike {f g : Value} (hf : f.isString = true) (h : f.alike g = true) :
    g = f := by
  cases f <;> simp [Value.isString, Value.string?] at hf
  rw [Value.alike_iff] at h
  rcases h with h | h
  · simp [Value.isSameNaN] at h
  · exact Value.equals_str_iff.1 h

theorem alike_label_refl {f : Value} (hf : f.isString = true) : f.alike f = true := by
  cases f <;> simp_all [Value.isString, Value.string?]

/-! ### The laws -/

theorem alike_refl {t : Term} (ht : t.meets .regular = true) : Alike t t := by
  induction t using induct with
  | var v => exact (alike_var_iff ht ht).2 rfl
  | const a =>
    refine alike_const_iff.2 ⟨a, rfl, ?_⟩
    cases hn : a.isNaN
    · exact .inr (Value.sameSymbol_refl ht hn)
    -- a NaN is like itself without being equal to itself
    · exact .inl (Value.isSameNaN_self hn)
  | app f ts ih =>
    rw [meets_app_iff] at ht
    refine alike_app_iff.2 ⟨f, ts, rfl, alike_label_refl ht.1, ?_⟩
    exact List.forall₂_same.2 fun t h => ih t h (ht.2 t h)

theorem alike_symm {t u : Term} (ht : t.meets .regular = true) (hu : u.meets .regular = true)
    (h : Alike t u) : Alike u t := by
  induction t using induct generalizing u with
  | var v =>
    obtain rfl := (alike_var_iff ht hu).1 h
    exact h
  | const a =>
    obtain ⟨c, rfl, hc⟩ := alike_const_iff.1 h
    refine alike_const_iff.2 ⟨a, rfl, hc.imp (fun h => ?_) (Value.sameSymbol_symm ht hu)⟩
    rwa [Value.isSameNaN_comm]
  | app f ts ih =>
    obtain ⟨g, us, rfl, hg, hus⟩ := alike_app_iff.1 h
    rw [meets_app_iff] at ht hu
    obtain rfl := label_eq_of_alike ht.1 hg
    refine alike_app_iff.2 ⟨g, ts, rfl, hg, (forall₂_imp_of_mem hus ?_).flip⟩
    exact fun t h u h' => ih t h (ht.2 t h) (hu.2 u h')

theorem alike_trans {t u w : Term} (ht : t.meets .regular = true)
    (hu : u.meets .regular = true) (h : Alike t u) (h' : Alike u w) : Alike t w := by
  induction t using induct generalizing u w with
  | var v =>
    obtain rfl := (alike_var_iff ht hu).1 h
    exact h'
  | const a =>
    obtain ⟨c, rfl, hc⟩ := alike_const_iff.1 h
    obtain ⟨d, rfl, hd⟩ := alike_const_iff.1 h'
    exact alike_const_iff.2 ⟨d, rfl, Value.sameNaN_or_sameSymbol_trans hc hd⟩
  | app f ts ih =>
    obtain ⟨g, us, rfl, hg, hus⟩ := alike_app_iff.1 h
    obtain ⟨k, ws, rfl, hk, hws⟩ := alike_app_iff.1 h'
    rw [meets_app_iff] at ht hu
    refine alike_app_iff.2 ⟨k, ws, rfl, Value.alike_trans hg hk, forall₂_trans_of_mem hus hws ?_⟩
    exact fun t h u h' w => ih t h (ht.2 t h) (hu.2 u h')

/-- Equal terms are alike. -/
theorem alike_of_beq {t u : Term} (h : (t == u) = true) : Alike t u := by
  change t.equals u = true at h
  rw [Alike, h, Bool.or_true]

/-! ### Where a NaN makes a difference -/

/-- A NaN is a constant, and the same NaN is the same constant. -/
theorem isSameNaN_iff {t u : Term} :
    t.isSameNaN u = true ↔ ∃ a, t = .const a ∧ u = .const a ∧ a.isSameNaN a = true := by
  constructor
  · intro h
    cases t <;> cases u <;> try cases h
    next a c =>
      obtain ⟨i, ⟨rfl, rfl⟩ | ⟨rfl, rfl⟩⟩ := Value.isSameNaN_iff.1 h
      · exact ⟨_, rfl, rfl, h⟩
      · exact ⟨_, rfl, rfl, h⟩
  · rintro ⟨a, rfl, rfl, h⟩
    exact h

theorem isSameNaN_comm (t u : Term) : t.isSameNaN u = u.isSameNaN t := by
  rw [Bool.eq_iff_iff, isSameNaN_iff, isSameNaN_iff]
  simp only [and_left_comm]

/-- What is like a NaN is that NaN. -/
theorem isSameNaN_of_alike {t u w : Term} (h : Alike t u) (hn : t.isSameNaN w = true) :
    t.isSameNaN u = true := by
  obtain ⟨a, rfl, -, ha⟩ := isSameNaN_iff.1 hn
  obtain ⟨c, rfl, hc | hc⟩ := alike_const_iff.1 h
  · exact hc
  · exact absurd (Bool.and_eq_true_iff.1 hc).2 (Value.not_equals_of_isSameNaN_left ha)

/-- A NaN equals nothing, not even itself. -/
theorem not_beq_of_isSameNaN {t u w : Term} (hn : t.isSameNaN w = true) : ¬ (t == u) = true := by
  obtain ⟨a, rfl, -, ha⟩ := isSameNaN_iff.1 hn
  intro h
  obtain ⟨c, rfl, -⟩ := alike_const_iff.1 (alike_of_beq h)
  have hac : a.sameSymbol c = true := h
  exact Value.not_equals_of_isSameNaN_left ha (Bool.and_eq_true_iff.1 hac).2

/-- Terms alike are equal, the NaNs apart. -/
theorem beq_iff {t u : Term} : (t == u) = true ↔ Alike t u ∧ t.isSameNaN u = false := by
  constructor
  · intro h
    exact ⟨alike_of_beq h, Bool.eq_false_iff.2 fun hn => not_beq_of_isSameNaN hn h⟩
  · rintro ⟨h, hn⟩
    rwa [Alike, hn, Bool.false_or] at h

/-- Where no symbol is a NaN, being alike is being equal. -/
theorem beq_iff_alike {t u : Term} (ht : t.meets .definite = true) :
    (t == u) = true ↔ Alike t u := by
  have hn : t.isSameNaN u = false := by
    rw [Bool.eq_false_iff]
    intro hn
    obtain ⟨a, rfl, -, ha⟩ := isSameNaN_iff.1 hn
    simp only [meets, Criterion.definite, Bool.and_eq_true, Bool.not_eq_true'] at ht
    simp [Value.isSameNaN_eq_false ht.1 ht.2] at ha
  rw [beq_iff, hn, and_iff_left rfl]

/-- Terms are alike exactly if they are one term or equal terms. -/
theorem alike_iff_eq_or_beq {t u : Term} (ht : t.meets .regular = true) :
    Alike t u ↔ t = u ∨ (t == u) = true := by
  constructor
  · intro h
    cases hn : t.isSameNaN u
    · exact .inr (beq_iff.2 ⟨h, hn⟩)
    · obtain ⟨a, rfl, rfl, -⟩ := isSameNaN_iff.1 hn
      exact .inl rfl
  · rintro (rfl | h)
    · exact alike_refl ht
    · exact alike_of_beq h

theorem beq_refl {t : Term} (ht : t.meets .definite = true) : (t == t) = true :=
  (beq_iff_alike ht).2 (alike_refl (meets_regular_of_definite ht))

theorem beq_symm {t u : Term} (ht : t.meets .regular = true) (hu : u.meets .regular = true)
    (h : (t == u) = true) : (u == t) = true := by
  obtain ⟨h, hn⟩ := beq_iff.1 h
  exact beq_iff.2 ⟨alike_symm ht hu h, by rwa [isSameNaN_comm]⟩

/-- Equality respects likeness: what is like the one is equal to what the one is equal to. -/
theorem beq_of_alike_of_beq {t u w : Term} (ht : t.meets .regular = true)
    (hu : u.meets .regular = true) (h : Alike t u) (h' : (u == w) = true) : (t == w) = true := by
  refine beq_iff.2 ⟨alike_trans ht hu h (alike_of_beq h'), Bool.eq_false_iff.2 fun hn => ?_⟩
  have hut : u.isSameNaN t = true := by
    rw [isSameNaN_comm]
    exact isSameNaN_of_alike h hn
  exact not_beq_of_isSameNaN hut h'

theorem beq_trans {t u w : Term} (ht : t.meets .regular = true) (hu : u.meets .regular = true)
    (h : (t == u) = true) (h' : (u == w) = true) : (t == w) = true :=
  beq_of_alike_of_beq ht hu (alike_of_beq h) h'

/-- Terms like equal ones are equal. -/
theorem beq_congr {t t' u u' : Term} (ht : t.meets .regular = true)
    (ht' : t'.meets .regular = true) (hu : u.meets .regular = true)
    (hu' : u'.meets .regular = true) (htt : Alike t t') (huu : Alike u u')
    (h : (t == u) = true) : (t' == u') = true := by
  have hleft : (t' == u) = true := beq_of_alike_of_beq ht' ht (alike_symm ht ht' htt) h
  -- and the same again on the other side
  exact beq_symm hu' ht' (beq_of_alike_of_beq hu' hu (alike_symm hu hu' huu) (beq_symm ht' hu hleft))

/-! ### Measures of terms alike -/

theorem heightList_eq_of_forall₂ {ts us : List Term}
    (h : List.Forall₂ (fun t u => t.height = u.height) ts us) : heightList ts = heightList us := by
  induction h with
  | nil => rfl
  | cons h _ ih => rw [heightList, heightList, h, ih]

theorem height_eq_of_alike {t u : Term} (ht : t.meets .regular = true)
    (hu : u.meets .regular = true) (h : Alike t u) : t.height = u.height := by
  induction t using induct generalizing u with
  | var v => rw [(alike_var_iff ht hu).1 h]
  | const a =>
    obtain ⟨c, rfl, -⟩ := alike_const_iff.1 h
    rfl
  | app f ts ih =>
    obtain ⟨g, us, rfl, -, hus⟩ := alike_app_iff.1 h
    rw [meets_app_iff] at ht hu
    rw [height, height, heightList_eq_of_forall₂ (forall₂_imp_of_mem hus
      fun t h u h' => ih t h (ht.2 t h) (hu.2 u h'))]

theorem occurrencesList_eq_of_forall₂ {ts us : List Term}
    (h : List.Forall₂ (fun t u => t.occurrences = u.occurrences) ts us) :
    occurrencesList ts = occurrencesList us := by
  induction h with
  | nil => rfl
  | cons h _ ih => rw [occurrencesList, occurrencesList, h, ih]

/-- Terms alike have the same variables in the same places. -/
theorem occurrences_eq_of_alike {t u : Term} (ht : t.meets .regular = true)
    (hu : u.meets .regular = true) (h : Alike t u) : t.occurrences = u.occurrences := by
  induction t using induct generalizing u with
  | var v => rw [(alike_var_iff ht hu).1 h]
  | const a =>
    obtain ⟨c, rfl, -⟩ := alike_const_iff.1 h
    rfl
  | app f ts ih =>
    obtain ⟨g, us, rfl, -, hus⟩ := alike_app_iff.1 h
    rw [meets_app_iff] at ht hu
    rw [occurrences, occurrences, occurrencesList_eq_of_forall₂ (forall₂_imp_of_mem hus
      fun t h u h' => ih t h (ht.2 t h) (hu.2 u h'))]

/-! ### Instances -/

/-- Instances of terms alike are alike. -/
theorem alike_instantiate {t u : Term} (ht : t.meets .regular = true)
    (hu : u.meets .regular = true) (hσ : ∀ v, v.isRegular = true → (σ v).meets .regular = true)
    (h : Alike t u) : Alike (t.instantiate σ) (u.instantiate σ) := by
  induction t using induct generalizing u with
  | var v =>
    obtain rfl := (alike_var_iff ht hu).1 h
    exact alike_refl (hσ v ht)
  | const a =>
    obtain ⟨c, rfl, hc⟩ := alike_const_iff.1 h
    simpa using h
  | app f ts ih =>
    obtain ⟨g, us, rfl, hg, hus⟩ := alike_app_iff.1 h
    rw [meets_app_iff] at ht hu
    rw [instantiate_app, instantiate_app]
    refine alike_app_iff.2 ⟨g, _, rfl, hg, ?_⟩
    rw [List.forall₂_map_left_iff, List.forall₂_map_right_iff]
    exact forall₂_imp_of_mem hus fun t h u h' => ih t h (ht.2 t h) (hu.2 u h')

/-- Instances of a term under assignments alike are alike. -/
theorem alike_instantiate_of_alike {t : Term} (ht : t.meets .regular = true)
    (h : ∀ v ∈ t.occurrences, Alike (σ v) (τ v)) :
    Alike (t.instantiate σ) (t.instantiate τ) := by
  induction t using induct with
  | var v => exact h v (by simp [occurrences])
  | const a => simpa using alike_refl ht
  | app f ts ih =>
    rw [meets_app_iff] at ht
    rw [instantiate_app, instantiate_app]
    refine alike_app_iff.2 ⟨f, _, rfl, alike_label_refl ht.1, ?_⟩
    rw [List.forall₂_map_left_iff, List.forall₂_map_right_iff, List.forall₂_same]
    exact fun t ht' => ih t ht' (ht.2 t ht') fun v hv => h v (mem_occurrences_app.2 ⟨t, ht', hv⟩)

end Term

namespace Literal

/-- Literals are equal exactly if the corresponding function terms are alike. -/
theorem beq_iff_alike {l m : Literal} : (l == m) = true ↔ Term.Alike l.asTerm m.asTerm := by
  show equals l m = true ↔ _
  rw [equals, Bool.and_eq_true, Term.alikeList_iff, asTerm, Term.alike_app_iff]
  simp [asTerm]

/-- What is equal to a ground literal is ground. -/
theorem isGround_of_beq {l m : Literal} (hl : l.meets .regular = true)
    (hm : m.meets .regular = true) (h : (l == m) = true) (hground : m.isGround = true) :
    l.isGround = true := by
  rw [isGround_iff] at hground ⊢
  exact (Term.occurrences_eq_of_alike hl hm (beq_iff_alike.1 h)).trans hground

end Literal

end HornSearch
