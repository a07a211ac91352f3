/-
HornSearch/Proofs/EqualOperands.lean

Unification respects equality.  Equal terms need not be one term: the symbols of constants are
compared loosely below the top, and objects whatever the order of their fields.  So an operand,
or a term in the environment, may be replaced by an equal one that is another term, and all the
same the answer has the same keys in the same order, bound to equal terms.

What is replaced and what is left as it is are taken together in `Item.SameOrEqual`: a NaN that
is left as it is stays the same, though it is not equal to itself.  For regular terms this is
likeness (`Item.sameOrEqual_term_iff`), so the theory of `Term.Alike` applies.

`Bindings.Related` compares two environments binding by binding.  If their terms are alike, they
depend on each other in the same way (`Related.dependsOn_eq`), and the occurs check finds the
same (`Related.occursIn_eq`).  Hence each rule of derivations applies on both sides, and leads to
problems that are alike again (`Unified.congr`).

`RespectsEquality` collects what is wanted, and `unify_respectsEquality` is the main result.
-/
import HornSearch.Proofs.Equivariance

namespace HornSearch

variable {p : Criterion} {b b' : Bindings} {x y x' y' j : Item} {es es' : List Equation}
variable {r r' : Option Bindings} {t t' u u' : Term} {v w : Variable}
variable {R S : Item → Item → Prop}

/-- The second item is the first one, or is equal to it. -/
def Item.SameOrEqual (i j : Item) : Prop := i = j ∨ (i == j) = true

/-- The environments bind the same keys in the same order, to items that are related. -/
def Bindings.Related (R : Item → Item → Prop) (b b' : Bindings) : Prop :=
  List.Forall₂ (fun e e' => e.1 = e'.1 ∧ R e.2 e'.2) b.entries b'.entries

/-- What is wanted of the equality of terms, and of unification in view of it. -/
structure RespectsEquality : Prop where
  /-- Equality goes both ways. -/
  symmetric : ∀ t u : Term, t.meets .regular = true → u.meets .regular = true →
    (t == u) = true → (u == t) = true
  /-- Equality goes along chains. -/
  transitive : ∀ t u w : Term, t.meets .regular = true → u.meets .regular = true →
    (t == u) = true → (u == w) = true → (t == w) = true
  /-- Every term without a NaN for a symbol is equal to itself. -/
  reflexive : ∀ t : Term, t.meets .definite = true → (t == t) = true
  /-- Operands, and items in the environment, that are left as they are or are replaced by equal
  ones lead to failure in both cases, or to the same keys in the same order, bound to items that
  are the same or equal. -/
  replaced : ∀ (x y x' y' : Item) (b b' : Bindings), Matched .regular x y →
    Matched .regular x' y' → b.Meets .regular → b'.Meets .regular → b.Acyclic →
    x.SameOrEqual x' → y.SameOrEqual y' → b.Related Item.SameOrEqual b' →
    ∃ r r', unify x y b = .ok r ∧ unify x' y' b' = .ok r' ∧
      Option.Rel (Bindings.Related Item.SameOrEqual) r r'
  /-- Where no symbol is a NaN, the items that are bound are equal. -/
  equal : ∀ (x y x' y' : Item) (b b' : Bindings), Matched .definite x y →
    Matched .regular x' y' → b.Meets .definite → b'.Meets .regular → b.Acyclic →
    (x == x') = true → (y == y') = true → b.Related (fun i j => (i == j) = true) b' →
    ∃ r r', unify x y b = .ok r ∧ unify x' y' b' = .ok r' ∧
      Option.Rel (Bindings.Related fun i j => (i == j) = true) r r'

/-! ### Equal operands -/

namespace Item

theorem sameOrEqual_term_iff (ht : t.meets .regular = true) :
    SameOrEqual (.term t) (.term u) ↔ Term.Alike t u := by
  rw [SameOrEqual, term_beq_iff, Term.alike_iff_eq_or_beq ht]
  simp

/-- A list that is like a list of terms is one. -/
theorem exists_of_alikeList {ts : List Term} {ys : List Item}
    (h : alikeList (ts.map .term) ys = true) :
    ∃ us, ys = us.map .term ∧ List.Forall₂ Term.Alike ts us := by
  induction ts generalizing ys with
  | nil =>
    cases ys with
    | nil => exact ⟨[], rfl, .nil⟩
    | cons y ys => simp [alikeList] at h
  | cons t ts ih =>
    cases ys with
    | nil => simp [alikeList] at h
    | cons y ys =>
      rw [List.map_cons, alikeList, Bool.and_eq_true] at h
      obtain ⟨us, rfl, hus⟩ := ih h.2
      cases y with
      | term u =>
        rw [isSameNaN, equals] at h
        exact ⟨u :: us, rfl, .cons h.1 hus⟩
      | _ => simp [isSameNaN, equals] at h

theorem IsSequenceOf.of_beq {ts : List Term} (hx : x.IsSequenceOf ts) (h : (x == x') = true) :
    ∃ us, x'.IsSequenceOf us ∧ List.Forall₂ Term.Alike ts us := by
  change equals x x' = true at h
  rcases hx with rfl | rfl
  · cases x' with
    | list ys =>
      obtain ⟨us, rfl, hus⟩ := exists_of_alikeList (by simpa [equals] using h)
      exact ⟨us, .inl rfl, hus⟩
    | _ => simp [equals] at h
  · cases x' with
    | tuple ys =>
      obtain ⟨us, rfl, hus⟩ := exists_of_alikeList (by simpa [equals] using h)
      exact ⟨us, .inr rfl, hus⟩
    | _ => simp [equals] at h

end Item

/-- As terms, an operand and what it is replaced by are alike. -/
theorem Matched.alike_operand (h : Matched .regular x y) (hx : x.SameOrEqual x') :
    Term.Alike x.operand x'.operand := by
  rcases hx with rfl | hx
  · exact Term.alike_refl (h.posed rfl Bindings.meets_empty).left
  · cases h with
    | terms =>
      obtain ⟨t', rfl, ht⟩ := Item.term_beq_iff.1 hx
      exact Term.alike_of_beq ht
    | literals =>
      obtain ⟨l', rfl, hl⟩ := Item.literal_beq_iff.1 hx
      exact Literal.beq_iff_alike.1 hl
    | sequences hseq =>
      obtain ⟨us, hseq', hus⟩ := hseq.of_beq hx
      rw [hseq.operand_eq, hseq'.operand_eq]
      exact Term.alike_app_iff.2 ⟨_, us, rfl, by simp, hus⟩

/-! ### Environments that are related -/

namespace Bindings.Related

theorem flip (h : b.Related R b') : b'.Related (fun i j => R j i) b :=
  (h.imp fun _ _ he => ⟨he.1.symm, he.2⟩).flip

theorem imp_of_mem (h : b.Related R b') (hRS : ∀ e ∈ b.entries, ∀ e' ∈ b'.entries,
    R e.2 e'.2 → S e.2 e'.2) : b.Related S b' :=
  forall₂_imp_of_mem h fun e he e' he' hr => ⟨hr.1, hRS e he e' he' hr.2⟩

/-- Each binding has its counterpart. -/
theorem exists_binds (h : b.Related R b') (hb' : b'.Meets p) (ht : b.Binds v t) :
    ∃ t', b'.Binds v t' ∧ R (.term t) (.term t') := by
  obtain ⟨e, he, hkey, hr⟩ := exists_of_forall₂ h ht
  obtain ⟨w, t', rfl, -⟩ := hb'.typed e he
  obtain rfl := Item.ofVariable_injective hkey
  exact ⟨t', he, hr⟩

variable (h : b.Related Item.SameOrEqual b') (hb : b.Meets .regular) (hb' : b'.Meets .regular)
include h hb hb'

theorem exists_alike (ht : b.Binds v t) : ∃ t', b'.Binds v t' ∧ Term.Alike t t' := by
  obtain ⟨t', ht', hr⟩ := h.exists_binds hb' ht
  exact ⟨t', ht', (Item.sameOrEqual_term_iff (hb.meets ht)).1 hr⟩

theorem isBound_iff : b'.IsBound v ↔ b.IsBound v := by
  constructor
  · rintro ⟨t', ht'⟩
    obtain ⟨t, ht, -⟩ := h.flip.exists_binds hb ht'
    exact ⟨t, ht⟩
  · rintro ⟨t, ht⟩
    obtain ⟨t', ht', -⟩ := h.exists_binds hb' ht
    exact ⟨t', ht'⟩

/-- The variables depend on each other in the same way. -/
theorem dependsOn_eq : b'.DependsOn = b.DependsOn := by
  have hocc : ∀ {v t t'}, b.Binds v t → b'.Binds v t' → t.occurrences = t'.occurrences := by
    intro v t t' ht ht'
    obtain ⟨s, hs, hts⟩ := h.exists_alike hb hb' ht
    obtain rfl := hb'.unique ht' hs
    exact Term.occurrences_eq_of_alike (hb.meets ht) (hb'.meets ht') hts
  ext v w
  constructor
  · rintro ⟨t', ht', hw⟩
    obtain ⟨t, ht⟩ := (h.isBound_iff hb hb').1 ⟨t', ht'⟩
    exact ⟨t, ht, by rwa [hocc ht ht']⟩
  · rintro ⟨t, ht, hw⟩
    obtain ⟨t', ht'⟩ := (h.isBound_iff hb hb').2 ⟨t, ht⟩
    exact ⟨t', ht', by rwa [← hocc ht ht']⟩

theorem acyclic (hac : b.Acyclic) : b'.Acyclic := by
  rw [Acyclic, h.dependsOn_eq hb hb']
  exact hac

/-- **The occurs check finds the same** in terms alike: what it looks for is reached through the
same bindings. -/
theorem occursIn_eq (hac : b.Acyclic) (hv : v.isRegular = true) (ht : t.meets .regular = true)
    (ht' : t'.meets .regular = true) (htt : Term.Alike t t') :
    occursIn (.ofVariable v) (.term t') b' = occursIn (.ofVariable v) (.term t) b := by
  have hac' := h.acyclic hb hb' hac
  refine Unified.occursIn_congr hac hb hv ht hac' hb' hv ht' ?_
  rw [Term.mem_occurrences_instantiate, Term.mem_occurrences_instantiate,
    ← Term.occurrences_eq_of_alike ht ht' htt]
  refine exists_congr fun w => and_congr_right fun hw => ?_
  have hw' := Term.isRegular_of_mem_occurrences ht hw
  rw [hac'.mem_occurrences_solution hb' hw', hac.mem_occurrences_solution hb hw', Reaches,
    h.dependsOn_eq hb hb', h.isBound_iff hb hb']

omit hb hb' in
theorem bind (ht : t.meets .regular = true) (htt : Term.Alike t t') :
    (b.bind v t).Related Item.SameOrEqual (b'.bind v t') :=
  List.rel_append h (.cons ⟨rfl, (Item.sameOrEqual_term_iff ht).2 htt⟩ .nil)

end Bindings.Related

/-! ### Derivations with terms alike -/

theorem Term.ne_var_of_alike (ht : t.meets .regular = true) (ht' : t'.meets .regular = true)
    (h : Term.Alike t t') (hne : t ≠ .var v) : t' ≠ .var v := by
  rintro rfl
  exact hne ((Term.alike_var_iff ht' ht).1 (Term.alike_symm ht ht' h))

/-- What clashes still does if both sides are replaced. -/
theorem Clash.congr (h : Clash t u) (ht : t.meets .regular = true) (ht' : t'.meets .regular = true)
    (hu : u.meets .regular = true) (hu' : u'.meets .regular = true) (htt : Term.Alike t t')
    (huu : Term.Alike u u') : Clash t' u' := by
  cases t with
  | var v => exact h.elim
  | const a =>
    obtain ⟨a', rfl, -⟩ := Term.alike_const_iff.1 htt
    cases u with
    | var w => exact h.elim
    | const c =>
      obtain ⟨c', rfl, -⟩ := Term.alike_const_iff.1 huu
      refine Bool.eq_false_iff.2 fun hac => Bool.eq_false_iff.1 h ?_
      exact Term.beq_congr ht' ht hu' hu (Term.alike_symm ht ht' htt)
        (Term.alike_symm hu hu' huu) hac
    | app g us =>
      obtain ⟨g', us', rfl, -⟩ := Term.alike_app_iff.1 huu
      trivial
  | app f ts =>
    obtain ⟨f', ts', rfl, hf, hts⟩ := Term.alike_app_iff.1 htt
    cases u with
    | var w => exact h.elim
    | const c =>
      obtain ⟨c', rfl, -⟩ := Term.alike_const_iff.1 huu
      trivial
    | app g us =>
      obtain ⟨g', us', rfl, hg, hus⟩ := Term.alike_app_iff.1 huu
      obtain rfl := Term.label_eq_of_alike (Term.meets_app_iff.1 ht).1 hf
      obtain rfl := Term.label_eq_of_alike (Term.meets_app_iff.1 hu).1 hg
      rwa [Clash, ← hts.length_eq, ← hus.length_eq]

/-- The sides of the equations are alike, one by one. -/
def EquationsAlike (es es' : List Equation) : Prop :=
  List.Forall₂ (fun e e' => Term.Alike e.1 e'.1 ∧ Term.Alike e.2 e'.2) es es'

theorem EquationsAlike.exists_cons {ds : List Equation} (h : EquationsAlike ((t, u) :: es) ds) :
    ∃ t' u' es', ds = (t', u') :: es' ∧ Term.Alike t t' ∧ Term.Alike u u' ∧
      EquationsAlike es es' := by
  obtain ⟨⟨t', u'⟩, es', ⟨ht, hu⟩, hes, rfl⟩ := List.forall₂_cons_left_iff.1 h
  exact ⟨t', u', es', rfl, ht, hu, hes⟩

/-- **A derivation goes through with terms alike** in the equations and in the environment, and
binds the same variables in the same order, to terms alike. -/
theorem Unified.congr (h : Unified es b r) (hp : Posed .regular es b)
    (hp' : Posed .regular es' b') (hac : b.Acyclic) (hes : EquationsAlike es es')
    (hb : b.Related Item.SameOrEqual b') :
    ∃ r', Unified es' b' r' ∧ Option.Rel (Bindings.Related Item.SameOrEqual) r r' := by
  induction h generalizing es' b' with
  | done =>
    cases hes
    exact ⟨_, .done, .some hb⟩
  | symbol hs _ ih =>
    obtain ⟨t', u', ds, rfl, ht, hu, hds⟩ := hes.exists_cons
    obtain ⟨a', rfl, -⟩ := Term.alike_const_iff.1 ht
    obtain ⟨c', rfl, -⟩ := Term.alike_const_iff.1 hu
    obtain ⟨r', hrest, hrel⟩ := ih hp.tail hp'.tail hac hds hb
    exact ⟨r', .symbol (Term.beq_congr hp.left hp'.left hp.right hp'.right ht hu hs) hrest, hrel⟩
  | turn hne _ ih =>
    obtain ⟨t', u', ds, rfl, ht, hu, hds⟩ := hes.exists_cons
    obtain rfl := (Term.alike_var_iff hp.right hp'.right).1 hu
    obtain ⟨r', hrest, hrel⟩ := ih hp.turn hp'.turn hac (.cons ⟨hu, ht⟩ hds) hb
    exact ⟨r', .turn (fun v => Term.ne_var_of_alike hp.left hp'.left ht (hne v)) hrest, hrel⟩
  | same _ ih =>
    obtain ⟨t', u', ds, rfl, ht, hu, hds⟩ := hes.exists_cons
    obtain rfl := (Term.alike_var_iff hp.left hp'.left).1 ht
    obtain rfl := (Term.alike_var_iff hp.right hp'.right).1 hu
    obtain ⟨r', hrest, hrel⟩ := ih hp.tail hp'.tail hac hds hb
    exact ⟨r', .same hrest, hrel⟩
  | follow hne hs _ ih =>
    obtain ⟨t', u', ds, rfl, ht, hu, hds⟩ := hes.exists_cons
    obtain rfl := (Term.alike_var_iff hp.left hp'.left).1 ht
    obtain ⟨s', hs', hss⟩ := hb.exists_alike hp.env hp'.env hs
    obtain ⟨r', hrest, hrel⟩ := ih (hp.follow hs) (hp'.follow hs') hac (.cons ⟨hu, hss⟩ hds) hb
    exact ⟨r', .follow (Term.ne_var_of_alike hp.right hp'.right hu hne) hs' hrest, hrel⟩
  | followRight hvw hfree hs _ ih =>
    obtain ⟨t', u', ds, rfl, ht, hu, hds⟩ := hes.exists_cons
    obtain rfl := (Term.alike_var_iff hp.left hp'.left).1 ht
    obtain rfl := (Term.alike_var_iff hp.right hp'.right).1 hu
    obtain ⟨s', hs', hss⟩ := hb.exists_alike hp.env hp'.env hs
    obtain ⟨r', hrest, hrel⟩ := ih (hp.followRight hs) (hp'.followRight hs') hac
      (.cons ⟨ht, hss⟩ hds) hb
    exact ⟨r', .followRight hvw (mt (hb.isBound_iff hp.env hp'.env).1 hfree) hs' hrest, hrel⟩
  | @bind v t es b r hne hfree hw hocc _ ih =>
    obtain ⟨t', u', ds, rfl, ht, hu, hds⟩ := hes.exists_cons
    obtain rfl := (Term.alike_var_iff hp.left hp'.left).1 ht
    have hfree' : ¬ b'.IsBound v := mt (hb.isBound_iff hp.env hp'.env).1 hfree
    have hac' := hac.bind hp.env hfree hp.right (not_occurs_of_bind hac hp hne hw hocc)
    obtain ⟨r', hrest, hrel⟩ := ih (hp.bind hfree) (hp'.bind hfree') hac' hds
      (hb.bind hp.right hu)
    refine ⟨r', .bind (Term.ne_var_of_alike hp.right hp'.right hu hne) hfree' ?_ ?_ hrest, hrel⟩
    · rintro w rfl
      have ht := (Term.alike_var_iff hp'.right hp.right).1 (Term.alike_symm hp.right hp'.right hu)
      exact mt (hb.isBound_iff hp.env hp'.env).1 (hw w ht)
    · rintro f us rfl
      rw [hb.occursIn_eq hp.env hp'.env hac hp.isRegular hp.right hp'.right hu]
      obtain ⟨g, ts, ht, -⟩ := Term.alike_app_iff.1 (Term.alike_symm hp.right hp'.right hu)
      exact hocc g ts ht
  | occurs hfree hocc =>
    obtain ⟨t', u', ds, rfl, ht, hu, hds⟩ := hes.exists_cons
    obtain rfl := (Term.alike_var_iff hp.left hp'.left).1 ht
    obtain ⟨f', ts', rfl, -⟩ := Term.alike_app_iff.1 hu
    refine ⟨none, .occurs (mt (hb.isBound_iff hp.env hp'.env).1 hfree) ?_, .none⟩
    rw [hb.occursIn_eq hp.env hp'.env hac hp.isRegular hp.right hp'.right hu, hocc]
  | decompose hfg hl _ ih =>
    obtain ⟨t', u', ds, rfl, ht, hu, hds⟩ := hes.exists_cons
    obtain ⟨f', ts', rfl, hf, hts⟩ := Term.alike_app_iff.1 ht
    obtain ⟨g', us', rfl, hg, hus⟩ := Term.alike_app_iff.1 hu
    obtain rfl := Term.label_eq_of_alike (Term.meets_app_iff.1 hp.left).1 hf
    obtain rfl := Term.label_eq_of_alike (Term.meets_app_iff.1 hp.right).1 hg
    obtain ⟨r', hrest, hrel⟩ := ih hp.decompose hp'.decompose hac
      (List.rel_append (forall₂_zip_zip hts hus) hds) hb
    exact ⟨r', .decompose hfg (by rw [← hts.length_eq, ← hus.length_eq, hl]) hrest, hrel⟩
  | clash hclash =>
    obtain ⟨t', u', ds, rfl, ht, hu, hds⟩ := hes.exists_cons
    exact ⟨none, .clash (hclash.congr hp.left hp'.left hp.right hp'.right ht hu), .none⟩

/-! ### The main result -/

theorem Matched.unify_congr (h : Matched .regular x y) (h' : Matched .regular x' y')
    (hb : b.Meets .regular) (hb' : b'.Meets .regular) (hac : b.Acyclic)
    (hx : x.SameOrEqual x') (hy : y.SameOrEqual y') (hbb : b.Related Item.SameOrEqual b') :
    ∃ r r', unify x y b = .ok r ∧ unify x' y' b' = .ok r' ∧
      Option.Rel (Bindings.Related Item.SameOrEqual) r r' := by
  obtain ⟨r, hr⟩ := h.unify_total hb hac
  obtain ⟨r', hr'⟩ := h'.unify_total hb' (hbb.acyclic hb hb' hac)
  have hes : EquationsAlike [(x.operand, y.operand)] [(x'.operand, y'.operand)] :=
    .cons ⟨h.alike_operand hx, h.symm.alike_operand hy⟩ .nil
  obtain ⟨r'', hu, hrel⟩ :=
    (h.unified hb hr).congr (h.posed rfl hb) (h'.posed rfl hb') hac hes hbb
  obtain rfl := (h'.unified hb' hr').unique (h'.posed rfl hb') hu
  exact ⟨r, r', hr, hr', hrel⟩

/-- Where no symbol is a NaN, what is the same is equal too. -/
theorem Bindings.Related.beq (h : b.Related Item.SameOrEqual b') (hb : b.Meets .definite)
    (hb' : b'.Meets .regular) : b.Related (fun i j => (i == j) = true) b' := by
  refine h.imp_of_mem fun e he e' he' hr => ?_
  obtain ⟨v, t, rfl, -, ht⟩ := hb.typed e he
  obtain ⟨v', t', rfl, -, -⟩ := hb'.typed e' he'
  rw [Item.sameOrEqual_term_iff (Term.meets_regular_of_definite ht)] at hr
  exact (Item.term_beq_iff_alike ht).2 hr

/-- **Unification respects equality**, which is symmetric and transitive, and reflexive where no
symbol is a NaN.  Symbols are proper values, as all JSON values are
(`Value.isProper_of_isJson`). -/
theorem unify_respectsEquality : RespectsEquality where
  symmetric _ _ ht hu h := Term.beq_symm ht hu h
  transitive _ _ _ ht hu h h' := Term.beq_trans ht hu h h'
  reflexive _ ht := Term.beq_refl ht
  replaced _ _ _ _ _ _ h h' hb hb' hac hx hy hbb := h.unify_congr h' hb hb' hac hx hy hbb
  equal x y x' y' b b' h h' hb hb' hac hx hy hbb := by
    have hbb' : b.Related Item.SameOrEqual b' := hbb.imp fun _ _ he => ⟨he.1, .inr he.2⟩
    obtain ⟨r, r', hr, hr', hrel⟩ :=
      h.regular.unify_congr h' hb.regular hb' hac (.inr hx) (.inr hy) hbb'
    refine ⟨r, r', hr, hr', ?_⟩
    cases hrel with
    | none => exact .none
    | some hθ =>
      have hm := (h.regular.unified hb.regular hr).meets rfl (h.posed rfl hb)
      have hm' := (h'.unified hb' hr').meets rfl (h'.posed rfl hb')
      exact .some (hθ.beq hm hm')

/-- Lists and objects with other numbers of the same size, and fields in another order:
`f(?X, [1, {a: 1, b: 0.0}], ?Z)` against `f(g(?Y), ?Y, NaN)` where `?W` stands for `[2]`, and
with `f(?X, [True, {b: -0.0, a: 1.0}], ?Z)` and `[2.0]` instead. -/
theorem respectsEquality_mixedSymbols :
    let f (symbol : Value) : Item := .term (.app (.str "f")
      [.var (.named "X"), .const symbol, .var (.named "Z")])
    let y : Item := .term (.app (.str "f") [.app (.str "g") [.var (.named "Y")],
      .var (.named "Y"), .const (.float (.nan 0))])
    let a : Value := .list [.int 1, .record [("a", .int 1), ("b", .float (.finite 0))]]
    let a' : Value := .list [.bool true,
      .record [("b", .float .negZero), ("a", .float (.finite 1))]]
    let b : Bindings := .ofPairs [(.named "W", .const (.list [.int 2]))]
    let b' : Bindings := .ofPairs [(.named "W", .const (.list [.float (.finite 2)]))]
    Matched .regular (f a) y ∧ Matched .regular (f a') y ∧ b.Meets .regular ∧ b'.Meets .regular ∧
      b.Acyclic ∧ (f a == f a') = true ∧ b.Related (fun i j => (i == j) = true) b' ∧
      ∃ θ θ', unify (f a) y b = .ok (some θ) ∧ unify (f a') y b' = .ok (some θ') ∧ θ.size = 4 ∧
        θ.Related Item.SameOrEqual θ' := by
  intro f y a a' b b'
  have hm : Matched .regular (f a) y := .terms rfl rfl
  have hm' : Matched .regular (f a') y := .terms rfl rfl
  obtain ⟨hb, hac⟩ : b.Meets .regular ∧ b.Acyclic :=
    Bindings.meets_acyclic_ofPairs (fun _ => 0) _ (by decide) (by simp)
  obtain ⟨hb', -⟩ : b'.Meets .regular ∧ b'.Acyclic :=
    Bindings.meets_acyclic_ofPairs (fun _ => 0) _ (by decide) (by simp)
  have hfa : (f a == f a') = true := rfl
  have hbb : b.Related (fun i j => (i == j) = true) b' := .cons ⟨rfl, rfl⟩ .nil
  obtain ⟨r, r', hr, hr', hrel⟩ := unify_respectsEquality.replaced (f a) y (f a') y b b' hm hm'
    hb hb' hac (.inr hfa) (.inl rfl) (hbb.imp fun _ _ he => ⟨he.1, .inr he.2⟩)
  obtain rfl : r = some _ := Except.ok.inj (hr.symm.trans rfl)
  cases hrel with
  | some hθ => exact ⟨hm, hm', hb, hb', hac, hfa, hbb, _, _, hr, hr', rfl, hθ⟩

end HornSearch
