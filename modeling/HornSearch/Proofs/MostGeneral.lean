/-
HornSearch/Proofs/MostGeneral.lean

Unification computes most general unifiers.  Its operands are two terms, two literals
or two sequences of terms (`Matched`), and a unifier makes them equal, sequences item
by item (`Unifies`), and gives the variable of each binding what it gives the term
that it is bound to (`Respects`).

`MostGeneral x y b answer` collects what is wanted of an answer: an environment keeps
the bindings of `b`, makes the operands equal, and every unifier is an instance of it;
failure means that there is no unifier.  `unify_mostGeneral` is the main result.

An operand of any kind is one term here (`Item.operand`): a literal the function term
with its predicate, a sequence a function term without a name.  So unification is one
equation between two terms, to which the theory of derivations applies.
-/
import HornSearch.Proofs.Nesting

namespace HornSearch

variable {p : Criterion} {b θ : Bindings} {σ : Assignment} {x y i j : Item} {ts us : List Term}

/-! ### Operands -/

namespace Item

/-- What is made equal when an operand is unified: the items of a sequence, and a term
or a literal as such. -/
def members : Item → List Item
  | .list xs | .tuple xs => xs
  | i => [i]

/-- Puts the terms of an assignment in the places of the variables of a term or a
literal. -/
def instantiate (σ : Assignment) : Item → Item
  | .term t => .term (t.instantiate σ)
  | .literal l => .literal (l.instantiate σ)
  | i => i

/-- The operand as one term. -/
def operand : Item → Term
  | .literal l => l.asTerm
  | .list xs | .tuple xs => .app (.str "") (xs.map toTerm)
  | i => i.toTerm

/-- The item is a list or a tuple of the given terms. -/
def IsSequenceOf (ts : List Term) (x : Item) : Prop :=
  x = .list (ts.map .term) ∨ x = .tuple (ts.map .term)

theorem IsSequenceOf.members_eq (h : IsSequenceOf ts x) : x.members = ts.map .term := by
  rcases h with rfl | rfl <;> rfl

theorem IsSequenceOf.operand_eq (h : IsSequenceOf ts x) : x.operand = .app (.str "") ts := by
  have hts : (ts.map Item.term).map toTerm = ts := by
    rw [List.map_map]
    exact List.map_id ts
  rcases h with rfl | rfl
  · rw [operand, hts]
  · rw [operand, hts]

end Item

/-- Two terms, two literals or two sequences of terms, all of whose parts meet a
criterion. -/
inductive Matched (p : Criterion) : Item → Item → Prop where
  | terms {t u : Term} : t.meets p = true → u.meets p = true → Matched p (.term t) (.term u)
  | literals {l m : Literal} :
      l.meets p = true → m.meets p = true → Matched p (.literal l) (.literal m)
  | sequences {x y : Item} {ts us : List Term} : x.IsSequenceOf ts → y.IsSequenceOf us →
      (∀ t ∈ ts, t.meets p = true) → (∀ u ∈ us, u.meets p = true) → Matched p x y

/-- The assignment makes the operands equal, sequences item by item. -/
def Unifies (σ : Assignment) (x y : Item) : Prop :=
  List.Forall₂ (fun i j => (i.instantiate σ == j.instantiate σ) = true) x.members y.members

/-- The assignment gives the variable of each binding what it gives the term that it
is bound to. -/
def Respects (σ : Assignment) (b : Bindings) : Prop :=
  ∀ v t, b.Binds v t → (σ v == t.instantiate σ) = true

/-- Applying the environment succeeds on both items, with equal results. -/
def EqualUnder (θ : Bindings) (i j : Item) : Prop :=
  ∃ i' j', θ.substitute i = .ok i' ∧ θ.substitute j = .ok j' ∧ (i' == j') = true

/-- What is wanted of an answer to unifying `x` and `y` under `b`. -/
structure MostGeneral (x y : Item) (b : Bindings) (answer : Checked (Option Bindings)) :
    Prop where
  /-- Old bindings are kept. -/
  keeps : ∀ θ, answer = .ok (some θ) → ∀ v t, b.Binds v t → θ.Binds v t
  /-- Applying the new environment makes the operands equal. -/
  equal : ∀ θ, answer = .ok (some θ) → List.Forall₂ (EqualUnder θ) x.members y.members
  /-- If there is a unifier, an environment is answered, and applying it first makes
  no difference to the unifier. -/
  general : ∀ σ : Assignment, σ.Meets .definite → Unifies σ x y → Respects σ b →
    ∃ θ, answer = .ok (some θ) ∧ ∀ v, v.isRegular = true →
      ∃ t, θ.substitute (.ofVariable v) = .ok (.term t) ∧ (σ v == t.instantiate σ) = true
  /-- Failure is answered exactly if there is no unifier. -/
  fails : answer = .ok none ↔
    ¬ ∃ σ : Assignment, σ.Meets .definite ∧ Unifies σ x y ∧ Respects σ b

/-! ### One equation -/

theorem respects_iff_solves (hσ : σ.Meets .definite) (hb : b.Meets .definite) :
    Respects σ b ↔ Solves σ b :=
  forall₂_congr fun _ _ =>
    forall_congr' fun h => Term.beq_iff_alike (hσ _ (hb.isRegular h))

namespace Item

/-- A term is equal to terms only. -/
theorem term_beq_iff {t : Term} :
    (Item.term t == j) = true ↔ ∃ u, j = .term u ∧ (t == u) = true := by
  show equals (.term t) j = true ↔ _
  cases j <;> simp [equals]

/-- A literal is equal to literals only. -/
theorem literal_beq_iff {l : Literal} :
    (Item.literal l == j) = true ↔ ∃ m, j = .literal m ∧ (l == m) = true := by
  show equals (.literal l) j = true ↔ _
  cases j <;> simp [equals]

theorem term_beq_iff_alike {t u : Term} (ht : t.meets .definite = true) :
    (Item.term t == .term u) = true ↔ Term.Alike t u := by
  rw [← Term.beq_iff_alike ht, term_beq_iff]
  simp

theorem literal_beq_iff_alike {l m : Literal} :
    (Item.literal l == .literal m) = true ↔ Term.Alike l.asTerm m.asTerm := by
  rw [← Literal.beq_iff_alike, literal_beq_iff]
  simp

end Item

namespace Matched

theorem imp {q : Criterion} (h : Matched p x y)
    (hpq : ∀ t : Term, t.meets p = true → t.meets q = true) : Matched q x y := by
  cases h with
  | terms ht hu => exact .terms (hpq _ ht) (hpq _ hu)
  | literals hl hm => exact .literals (hpq _ hl) (hpq _ hm)
  | sequences hx hy hts hus =>
    exact .sequences hx hy (fun t ht => hpq t (hts t ht)) fun u hu => hpq u (hus u hu)

theorem symm (h : Matched p x y) : Matched p y x := by
  cases h with
  | terms ht hu => exact .terms hu ht
  | literals hl hm => exact .literals hm hl
  | sequences hx hy hts hus => exact .sequences hy hx hus hts

theorem regular (h : Matched .definite x y) : Matched .regular x y :=
  h.imp fun _ => Term.meets_regular_of_definite

theorem loose [p.Named] (h : Matched p x y) : Matched .loose x y := h.imp fun _ => Term.meets_loose

theorem posed [hn : p.Named] (h : Matched p x y) (hlabel : p.label (.str "") = true)
    (hb : b.Meets p) : Posed p [(x.operand, y.operand)] b := by
  cases h with
  | terms ht hu => exact .single hn.isRegular ht hu hb
  | literals hl hm => exact .single hn.isRegular hl hm hb
  | sequences hx hy hts hus =>
    rw [hx.operand_eq, hy.operand_eq]
    exact .single hn.isRegular (Term.meets_app_iff.2 ⟨hlabel, hts⟩)
      (Term.meets_app_iff.2 ⟨hlabel, hus⟩) hb

/-- Unification of sequences does not ask which of them are lists and which tuples. -/
theorem unify_sequences (hx : x.IsSequenceOf ts) (hy : y.IsSequenceOf us) (b : Bindings) :
    unify x y b = unifyLists (ts.map .term) (us.map .term) b := by
  rcases hx with rfl | rfl <;> rcases hy with rfl | rfl <;> rfl

section

variable [hn : p.Named]

/-- Unifying operands settles. -/
theorem settles (h : Matched p x y) (hb : b.Meets p) (hac : b.Acyclic) :
    Settles (nestingBound x.compared y.compared b) fun depth => record depth x y b := by
  cases h with
  | terms ht hu => exact settles_terms ht hu hb hac
  | literals hl hm => exact settles_literals hl hm hb hac
  | sequences hx hy hts hus =>
    rcases hx with rfl | rfl <;> rcases hy with rfl | rfl <;> exact settles_lists hts hus hb hac

theorem unify_total (h : Matched p x y) (hb : b.Meets p) (hac : b.Acyclic) :
    ∃ r, unify x y b = .ok r :=
  (h.settles hb hac).exists_answer (record_answer x y b)

theorem unified (h : Matched p x y) (hb : b.Meets p) {r : Option Bindings}
    (hr : unify x y b = .ok r) : Unified [(x.operand, y.operand)] b r := by
  cases h with
  | terms ht hu => exact unifyTerms_unified ht hu hb hr
  | literals hl hm => exact unifyLiterals_unified hl hm hb hr
  | sequences hx hy hts hus =>
    rw [unify_sequences hx hy] at hr
    rw [hx.operand_eq, hy.operand_eq]
    exact unifyLists_unified (by simp) hts hus hb hr

end

/-- Making the operands equal is solving the one equation. -/
theorem unifies_iff (h : Matched .definite x y) (hσ : σ.Meets .definite) :
    Unifies σ x y ↔ Term.Alike (x.operand.instantiate σ) (y.operand.instantiate σ) := by
  cases h with
  | terms ht hu =>
    simp only [Unifies, Item.members, Item.instantiate, List.forall₂_cons, List.forall₂_nil_left_iff,
      and_true]
    exact Item.term_beq_iff_alike (hσ.definite_instantiate ht)
  | literals hl hm =>
    simp only [Unifies, Item.members, Item.instantiate, List.forall₂_cons, List.forall₂_nil_left_iff,
      and_true, Item.operand, ← Literal.asTerm_instantiate]
    exact Item.literal_beq_iff_alike
  | @sequences _ _ ts us hx hy hts hus =>
    rw [Unifies, hx.members_eq, hy.members_eq, hx.operand_eq, hy.operand_eq,
      Term.instantiate_app, Term.instantiate_app, Term.alike_app_iff]
    have hitems : List.Forall₂ (fun i j => (i.instantiate σ == j.instantiate σ) = true)
        (ts.map Item.term) (us.map Item.term) ↔
          List.Forall₂ Term.Alike (ts.map (Term.instantiate σ)) (us.map (Term.instantiate σ)) := by
      simp only [List.forall₂_map_left_iff, List.forall₂_map_right_iff]
      exact forall₂_congr_of_mem fun t ht u _ =>
        Item.term_beq_iff_alike (hσ.definite_instantiate (hts t ht))
    rw [hitems]
    constructor
    · intro h
      exact ⟨_, _, rfl, by simp, h⟩
    · rintro ⟨g, ws, hg, -, h⟩
      rwa [(Term.app.inj hg).2]

/-- Applying an environment to what is made equal puts in its solution. -/
theorem substitute_eq (h : Matched .regular x y) (hθ : θ.Meets .regular) (hac : θ.Acyclic) :
    ∀ i, i ∈ x.members ∨ i ∈ y.members → θ.substitute i = .ok (i.instantiate θ.solution) := by
  cases h with
  | terms ht hu =>
    rintro i (hi | hi)
    · obtain rfl := List.mem_singleton.1 hi
      exact hac.substitute_term hθ ht
    · obtain rfl := List.mem_singleton.1 hi
      exact hac.substitute_term hθ hu
  | literals hl hm =>
    rintro i (hi | hi)
    · obtain rfl := List.mem_singleton.1 hi
      exact hac.substitute_literal hθ hl
    · obtain rfl := List.mem_singleton.1 hi
      exact hac.substitute_literal hθ hm
  | sequences hx hy hts hus =>
    rw [hx.members_eq, hy.members_eq]
    rintro i (hi | hi)
    · obtain ⟨t, ht, rfl⟩ := List.mem_map.1 hi
      exact hac.substitute_term hθ (hts t ht)
    · obtain ⟨u, hu, rfl⟩ := List.mem_map.1 hi
      exact hac.substitute_term hθ (hus u hu)

theorem equalUnder_iff (h : Matched .regular x y) (hθ : θ.Meets .regular) (hac : θ.Acyclic) :
    List.Forall₂ (EqualUnder θ) x.members y.members ↔ Unifies θ.solution x y := by
  have hsub := h.substitute_eq hθ hac
  refine forall₂_congr_of_mem fun i hi j hj => ?_
  rw [EqualUnder, hsub i (.inl hi), hsub j (.inr hj)]
  constructor
  · rintro ⟨i', j', hi', hj', hij⟩
    rwa [Except.ok.inj hi', Except.ok.inj hj']
  · intro hij
    exact ⟨_, _, rfl, rfl, hij⟩

end Matched

/-! ### The main result -/

/-- **Unification computes a most general unifier**, under every acyclic environment
and for all operands. -/
theorem unify_mostGeneral (h : Matched .definite x y) (hb : b.Meets .definite)
    (hac : b.Acyclic) : MostGeneral x y b (unify x y b) := by
  obtain ⟨r, hr⟩ := h.regular.unify_total hb.regular hac
  have hu := h.regular.unified hb.regular hr
  have hp := h.posed rfl hb
  -- what an environment that is answered is like
  have hθ : ∀ θ, r = some θ → θ.Meets .definite ∧ θ.Acyclic ∧ Unifies θ.solution x y ∧
      Respects θ.solution b := by
    rintro θ hrθ
    have hm := hu.meets hrθ hp
    have hac' := hu.acyclic hrθ hp.regular hac
    have hsol : θ.solution.Meets .definite := fun _ hv => hac'.definite_solution hm hv
    obtain ⟨hs, he⟩ := hu.sound hrθ hp.regular hsol.regular (hac'.solves_solution hm.regular)
    exact ⟨hm, hac', (h.unifies_iff hsol).2 (equalizes_cons.1 he).1,
      (respects_iff_solves hsol hb).2 hs⟩
  have hcomplete : ∀ σ : Assignment, σ.Meets .definite → Unifies σ x y → Respects σ b →
      ∃ θ, r = some θ ∧ Solves σ θ := by
    intro σ hσ hxy hσb
    refine hu.complete hp hac hσ.regular ((respects_iff_solves hσ hb).1 hσb) ?_
    exact equalizes_cons.2 ⟨(h.unifies_iff hσ).1 hxy, by simp [Equalizes]⟩
  rw [hr]
  refine ⟨fun θ hrθ v t ht => ?_, fun θ hrθ => ?_, fun σ hσ hxy hσb => ?_, ?_⟩
  · exact (hu.isPrefix (Except.ok.inj hrθ)).subset ht
  · obtain ⟨hm, hac', hxy, -⟩ := hθ θ (Except.ok.inj hrθ)
    exact (h.regular.equalUnder_iff hm.regular hac').2 hxy
  · obtain ⟨θ, rfl, hs⟩ := hcomplete σ hσ hxy hσb
    obtain ⟨hm, hac', -⟩ := hθ θ rfl
    refine ⟨θ, rfl, fun v hv => ⟨θ.solution v, ?_, ?_⟩⟩
    · exact hac'.substitute_term hm.regular (t := .var v) hv
    · exact (Term.beq_iff_alike (hσ v hv)).2 (hs.alike_solution hac' hm.regular hσ.regular hv)
  · constructor
    · rintro hnone ⟨σ, hσ, hxy, hσb⟩
      obtain ⟨θ, rfl, -⟩ := hcomplete σ hσ hxy hσb
      cases hnone
    · intro hno
      cases r with
      | none => rfl
      | some θ =>
        obtain ⟨hm, hac', hxy, hsb⟩ := hθ θ rfl
        exact absurd ⟨θ.solution, fun _ hv => hac'.definite_solution hm hv, hxy, hsb⟩ hno

/-- A chain of bindings, a shared variable and sequences of both kinds: `g(?X, ?W), ?W`
against `g(f(a), ?Z), a` where `?X` stands for `?Y` and that for `f(?Z)`. -/
theorem mostGeneral_chain :
    let x : Item := .list [.term (.app (.str "g") [.var (.named "X"), .var (.named "W")]),
      .term (.var (.named "W"))]
    let y : Item := .tuple [.term (.app (.str "g")
      [.app (.str "f") [.const (.str "a")], .var (.named "Z")]), .term (.const (.str "a"))]
    let b : Bindings := ⟨[(.ofVariable (.named "X"), .term (.var (.named "Y"))),
      (.ofVariable (.named "Y"), .term (.app (.str "f") [.var (.named "Z")]))]⟩
    Matched .definite x y ∧ b.Meets .definite ∧ b.Acyclic ∧
      ∃ θ, unify x y b = .ok (some θ) ∧ θ.size = 4 ∧
        (∀ v t, b.Binds v t → θ.Binds v t) ∧ List.Forall₂ (EqualUnder θ) x.members y.members := by
  intro x y b
  have hx : x.IsSequenceOf [.app (.str "g") [.var (.named "X"), .var (.named "W")],
      .var (.named "W")] := .inl rfl
  have hy : y.IsSequenceOf [.app (.str "g") [.app (.str "f") [.const (.str "a")],
      .var (.named "Z")], .const (.str "a")] := .inr rfl
  have hxy : Matched .definite x y := .sequences hx hy (by decide) (by decide)
  have hb : b.Meets .definite := by
    refine ⟨List.forall_mem_cons.2 ⟨⟨_, _, rfl, rfl, rfl⟩, List.forall_mem_singleton.2 ?_⟩, ?_⟩
    · exact ⟨_, _, rfl, rfl, rfl⟩
    · simp [b, Bindings.keys, Item.ofVariable, Variable.named]
  have hac : b.Acyclic := by
    -- `?X` comes before `?Y`, and that before `?Z`
    refine Bindings.acyclic_of_rank (fun v => if v == .named "X" then 2 else
      if v == .named "Y" then 1 else 0) ?_
    rintro v w ⟨t, ht, hw⟩
    rcases List.mem_cons.1 ht with e | ht
    · cases e
      obtain rfl := List.mem_singleton.1 hw
      decide
    · cases List.mem_singleton.1 ht
      obtain rfl := List.mem_singleton.1 hw
      decide
  have h := unify_mostGeneral hxy hb hac
  exact ⟨hxy, hb, hac, _, rfl, rfl, h.keeps _ rfl, h.equal _ rfl⟩

end HornSearch
