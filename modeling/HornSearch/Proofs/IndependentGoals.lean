/-
HornSearch/Proofs/IndependentGoals.lean

Goals that share no variable can be proved in either order.  Once the starting bindings are
put in, two groups of goals may have no variable in common (`Apart`); then the proof of the
one group leaves what the other one stands for alone, and leaves the two apart
(`Course.keeps`).  So each group is searched for alike before the other and after it: the same
facts close its goals, and the same rules (`Course.provedAlike`).

The two searches draw other serials, follow other chains of bindings and have other goals
pending.  They agree for each group up to a renaming, and because the groups are apart
afterwards too, one renaming does for both (`Interchangeable.append`).  So a query that is
proved is proved with the groups exchanged (`prove_exchanged`).
-/
import HornSearch.Proofs.Locality
import HornSearch.Proofs.StartingBindings

namespace HornSearch

/-! ### Courses in parts -/

section Parts

variable {kb : KnowledgeBase} {limit : Option Nat} {levels depth : Nat}
variable {pending pending' first second : List Literal} {task : Task} {b c : Bindings}
variable {e : Ending}

/-- What is fresh for some literals is fresh for fewer. -/
theorem FreshCopy.weaken {rule copy : Rule} {ls ls' : List Literal} (h : FreshCopy rule copy ls b)
    (hsub : ls' ⊆ ls) : FreshCopy rule copy ls' b :=
  ⟨h.isVariant, h.regular, fun v hv l hl => h.literals v hv l (hsub hl), h.bindings⟩

/-- A course is one with fewer goals pending, too. -/
theorem Course.weaken (h : Course kb limit levels depth pending task b e)
    (hsub : pending' ⊆ pending) : Course kb limit levels depth pending' task b e := by
  have happend : ∀ {ls ls' : List Literal}, ls' ⊆ ls → ∀ goals, goals ++ ls' ⊆ goals ++ ls := by
    intro ls ls' hls goals
    refine List.append_subset.2 ⟨List.subset_append_left _ _, ?_⟩
    exact List.Subset.trans hls (List.subset_append_right _ _)
  induction h generalizing pending' with
  | nil => exact .nil
  | cons _ _ ihgoal ih => exact .cons (ihgoal (happend hsub _)) (ih hsub)
  | halt _ hproof ih => exact .halt (ih (happend hsub _)) hproof
  | tooDeep hlimit => exact .tooDeep hlimit
  | endless hallows => exact .endless hallows
  | fact hallows hfact => exact .fact hallows hfact
  | rules hallows hfacts _ ih => exact .rules hallows hfacts (ih hsub)
  | exhausted => exact .exhausted
  | skip hpredicate _ ih => exact .skip hpredicate (ih hsub)
  | clash hpredicate hcopy hunify _ ih =>
    exact .clash hpredicate (hcopy.weaken (List.cons_subset_cons _ hsub)) hunify (ih hsub)
  | next hpredicate hcopy hunify _ _ ihbody ih =>
    exact .next hpredicate (hcopy.weaken (List.cons_subset_cons _ hsub)) hunify (ihbody hsub)
      (ih hsub)
  | take hpredicate hcopy hunify _ hne ihbody =>
    exact .take hpredicate (hcopy.weaken (List.cons_subset_cons _ hsub)) hunify (ihbody hsub) hne

/-- A proof after some nodes is a proof of its own. -/
theorem Ending.exists_of_after {nodes all : List ProofNode} (h : e.after nodes = .proved c all) :
    ∃ others, e = .proved c others ∧ all = nodes ++ others := by
  cases e with
  | proved c' others =>
    obtain ⟨rfl, rfl⟩ := Ending.proved.inj h
    exact ⟨others, rfl, rfl⟩
  | failed => cases h
  | tooDeep => cases h
  | endless => cases h

theorem Ending.proof?_after_eq_none_iff {nodes : List ProofNode} :
    (e.after nodes).proof? = none ↔ e.proof? = none := by
  cases e <;> simp [after, proof?]

/-- The course of two groups of goals is one of the first group, and one of the second group
after that if the first is proved. -/
theorem Course.split
    (h : Course kb limit levels depth pending (.goals (first ++ second)) b e) :
    ∃ e', Course kb limit levels depth (second ++ pending) (.goals first) b e' ∧
      (e'.proof? = none → e = e') ∧ ∀ c nodes, e' = .proved c nodes →
        ∃ e'', Course kb limit levels depth pending (.goals second) c e'' ∧
          e = e''.after nodes := by
  induction first generalizing b e with
  | nil =>
    refine ⟨.proved b [], .nil, ?_, ?_⟩
    · intro hnone
      cases hnone
    · intro c nodes he
      obtain ⟨rfl, rfl⟩ := Ending.proved.inj he
      exact ⟨e, h, e.after_nil.symm⟩
  | cons goal first ih =>
    rw [List.cons_append] at h
    cases h with
    | @cons _ _ _ _ _ _ d nodes e hgoal hrest =>
      rw [List.append_assoc] at hgoal
      obtain ⟨e', hfirst, hhalt, hsecond⟩ := ih hrest
      refine ⟨e'.after nodes, .cons hgoal hfirst, ?_, ?_⟩
      · intro hnone
        rw [hhalt (Ending.proof?_after_eq_none_iff.1 hnone)]
      · intro c all he
        obtain ⟨others, rfl, rfl⟩ := Ending.exists_of_after he
        obtain ⟨e'', hcourse, rfl⟩ := hsecond c others rfl
        exact ⟨e'', hcourse, e''.after_after _ _⟩
    | halt hgoal hproof =>
      rw [List.append_assoc] at hgoal
      refine ⟨e, .halt hgoal hproof, fun _ => rfl, ?_⟩
      rintro c nodes rfl
      cases hproof

/-- The nodes of a proof are about its goals. -/
theorem Course.goals_eq {nodes : List ProofNode}
    (h : Course kb limit levels depth pending task b (.proved c nodes)) :
    nodes.map ProofNode.goal = task.literals := by
  generalize he : Ending.proved c nodes = e at h
  induction h generalizing c nodes with
  | nil =>
    obtain ⟨-, rfl⟩ := Ending.proved.inj he
    rfl
  | cons _ _ ihgoal ih =>
    obtain ⟨others, rfl, rfl⟩ := Ending.exists_of_after he.symm
    rw [List.map_append, ihgoal rfl, ih rfl]
    rfl
  | halt _ hproof =>
    rw [← he] at hproof
    cases hproof
  | fact =>
    obtain ⟨-, rfl⟩ := Ending.proved.inj he
    rfl
  | rules _ _ _ ih => exact ih he
  | skip _ _ ih => exact ih he
  | clash _ _ _ _ ih => exact ih he
  | next _ _ _ _ _ _ ih => exact ih he
  | @take _ _ _ _ _ _ _ _ _ e =>
    cases e with
    | proved =>
      obtain ⟨-, rfl⟩ := Ending.proved.inj he
      rfl
    | failed => cases he
    | tooDeep => cases he
    | endless => cases he
  | tooDeep => cases he
  | endless => cases he
  | exhausted => cases he

end Parts

/-! ### Interchangeable literals -/

section Interchangeable

variable {ps qs : Pairing} {b₁ b₂ c₁ c₂ : Bindings} {goals : List Literal}
variable {τ τ' : Assignment}

/-- Only what the literals stand for matters. -/
theorem Specializes.congr (hτ : Specializes τ ps b₁ b₂)
    (heq : ∀ l₁ l₂, (l₁, l₂) ∈ ps → l₁.instantiate c₁.solution = l₁.instantiate b₁.solution ∧
      l₂.instantiate c₂.solution = l₂.instantiate b₂.solution) : Specializes τ ps c₁ c₂ where
  regular := hτ.regular
  instances l₁ l₂ hl := by
    obtain ⟨heq₁, heq₂⟩ := heq l₁ l₂ hl
    rw [← Literal.asTerm_instantiate, ← Literal.asTerm_instantiate, heq₁, heq₂,
      Literal.asTerm_instantiate, Literal.asTerm_instantiate]
    exact hτ.instances l₁ l₂ hl

open Classical in
/-- Two assignments, for literals that share no variable, are one. -/
theorem Specializes.append (hτ : Specializes τ ps b₁ b₂) (hτ' : Specializes τ' qs b₁ b₂)
    (hdisjoint : (b₁.remaining (ps.map Prod.fst)).Disjoint (b₁.remaining (qs.map Prod.fst))) :
    ∃ ρ, Specializes ρ (ps ++ qs) b₁ b₂ := by
  let ρ : Assignment := fun v => if v ∈ b₁.remaining (ps.map Prod.fst) then τ v else τ' v
  have hremaining : ∀ {ls : Pairing} {l₁ l₂ : Literal}, (l₁, l₂) ∈ ls →
      ∀ v ∈ (l₁.asTerm.instantiate b₁.solution).occurrences,
        v ∈ b₁.remaining (ls.map Prod.fst) := by
    intro ls l₁ l₂ hl v hv
    rw [← Literal.asTerm_instantiate, Literal.occurrences_asTerm] at hv
    exact Bindings.mem_remaining.2 ⟨l₁, List.mem_map.2 ⟨_, hl, rfl⟩, hv⟩
  refine ⟨ρ, fun v hv => ?_, fun l₁ l₂ hl => ?_⟩
  · by_cases hmem : v ∈ b₁.remaining (ps.map Prod.fst)
    · simp only [ρ, if_pos hmem]
      exact hτ.regular v hv
    · simp only [ρ, if_neg hmem]
      exact hτ'.regular v hv
  rcases List.mem_append.1 hl with hl | hl
  · have hρ : (l₁.asTerm.instantiate b₁.solution).instantiate ρ =
        (l₁.asTerm.instantiate b₁.solution).instantiate τ :=
      Term.instantiate_congr fun v hv => if_pos (hremaining hl v hv)
    rw [hρ]
    exact hτ.instances l₁ l₂ hl
  · have hρ : (l₁.asTerm.instantiate b₁.solution).instantiate ρ =
        (l₁.asTerm.instantiate b₁.solution).instantiate τ' :=
      Term.instantiate_congr fun v hv =>
        if_neg (hdisjoint.symm (hremaining hl v hv))
    rw [hρ]
    exact hτ'.instances l₁ l₂ hl

namespace Interchangeable

/-- Other bindings do as well if the literals stand for the same under them. -/
theorem congr (h : Interchangeable ps b₁ b₂) (hc : c₁.Meets .definite ∧ c₂.Meets .definite)
    (hac : c₁.Acyclic ∧ c₂.Acyclic)
    (heq : ∀ l₁ l₂, (l₁, l₂) ∈ ps → l₁.instantiate c₁.solution = l₁.instantiate b₁.solution ∧
      l₂.instantiate c₂.solution = l₂.instantiate b₂.solution) : Interchangeable ps c₁ c₂ where
  literals := h.literals
  definite := hc
  acyclic := hac
  forth := h.forth.imp fun _ hτ => hτ.congr heq
  back := h.back.imp fun _ hτ => hτ.congr fun l₂ l₁ hl =>
    (heq l₁ l₂ ((List.mem_map_swap l₁ l₂ ps).1 hl)).symm

theorem mono (h : Interchangeable ps b₁ b₂) (hsub : qs ⊆ ps) : Interchangeable qs b₁ b₂ where
  literals l₁ l₂ hl := h.literals l₁ l₂ (hsub hl)
  definite := h.definite
  acyclic := h.acyclic
  forth := h.forth.imp fun _ hτ => ⟨hτ.regular, fun l₁ l₂ hl => hτ.instances l₁ l₂ (hsub hl)⟩
  back := h.back.imp fun _ hτ =>
    ⟨hτ.regular, fun l₁ l₂ hl => hτ.instances l₁ l₂ (List.map_subset _ hsub hl)⟩

/-- **Pairs that share no variable** on either side are interchangeable together. -/
theorem append (h : Interchangeable ps b₁ b₂) (h' : Interchangeable qs b₁ b₂)
    (hleft : (b₁.remaining (ps.map Prod.fst)).Disjoint (b₁.remaining (qs.map Prod.fst)))
    (hright : (b₂.remaining (ps.map Prod.snd)).Disjoint (b₂.remaining (qs.map Prod.snd))) :
    Interchangeable (ps ++ qs) b₁ b₂ where
  literals l₁ l₂ hl := (List.mem_append.1 hl).elim (h.literals l₁ l₂) (h'.literals l₁ l₂)
  definite := h.definite
  acyclic := h.acyclic
  forth := by
    obtain ⟨τ, hτ⟩ := h.forth
    obtain ⟨τ', hτ'⟩ := h'.forth
    exact hτ.append hτ' hleft
  back := by
    obtain ⟨τ, hτ⟩ := h.back
    obtain ⟨τ', hτ'⟩ := h'.back
    rw [List.map_append]
    refine hτ.append hτ' ?_
    rwa [List.map_map, List.map_map]

/-- Literals are interchangeable with themselves. -/
theorem self {b : Bindings} (hgoals : ∀ g ∈ goals, g.meets .definite = true)
    (hb : b.Meets .definite) (hac : b.Acyclic) : Interchangeable (goals.zip goals) b b := by
  have hsame : ∀ l₁ l₂, (l₁, l₂) ∈ goals.zip goals →
      l₁.meets .definite = true ∧ l₂ = l₁ ∧
        (l₁.asTerm.instantiate b.solution).meets .regular = true := by
    intro l₁ l₂ hl
    obtain ⟨hmem, rfl⟩ := eq_of_mem_zip_self hl
    refine ⟨hgoals _ hmem, rfl, ?_⟩
    exact (hac.solution_meets_regular hb.regular).regular_instantiate
      (Literal.meets_regular_of_definite (hgoals _ hmem))
  have hspecializes : Specializes .var (goals.zip goals) b b := by
    refine ⟨fun _ hv => hv, fun l₁ l₂ hl => ?_⟩
    obtain ⟨-, rfl, hregular⟩ := hsame l₁ l₂ hl
    rw [Term.instantiate_id]
    exact Term.alike_refl hregular
  refine ⟨fun l₁ l₂ hl => ?_, ⟨hb, hb⟩, ⟨hac, hac⟩, ⟨_, hspecializes⟩, ⟨.var, ?_⟩⟩
  · obtain ⟨hmeets, rfl, -⟩ := hsame l₁ l₂ hl
    exact ⟨hmeets, hmeets, rfl⟩
  · rwa [List.zip_swap]

end Interchangeable

end Interchangeable

/-! ### Groups that are apart -/

section Groups

variable {kb : KnowledgeBase} {limit : Option Nat} {levels depth : Nat}
variable {pending pending₁ pending₂ goals first second : List Literal}
variable {b b₁ b₂ c c₁ c₂ d : Bindings} {nodes nodes₁ nodes₂ : List ProofNode} {e₂ : Ending}

/-- Two groups of goals share no variable once the bindings are put in. -/
structure Apart (first second : List Literal) (b : Bindings) : Prop where
  left : ∀ g ∈ first, g.meets .definite = true
  right : ∀ g ∈ second, g.meets .definite = true
  definite : b.Meets .definite
  acyclic : b.Acyclic
  disjoint : (b.remaining first).Disjoint (b.remaining second)

theorem Apart.symm (h : Apart first second b) : Apart second first b :=
  ⟨h.right, h.left, h.definite, h.acyclic, h.disjoint.symm⟩

/-- The same goals are proved in the same way. -/
structure ProvedAlike (kb : KnowledgeBase) (goals : List Literal) (nodes₁ nodes₂ : List ProofNode) :
    Prop where
  left : nodes₁.map ProofNode.goal = goals
  right : nodes₂.map ProofNode.goal = goals
  shape : SameShape kb kb (fun l₁ l₂ => l₁.predicate = l₂.predicate) nodes₁ nodes₂

/-- **Goals that stand for the same** are searched for alike: if a search proves them, another
one proves them in the same way. -/
theorem Course.provedAlike (hkb : kb.Meets .definite)
    (hgoals : ∀ g ∈ goals, g.meets .definite = true)
    (hb : b₁.Meets .definite ∧ b₂.Meets .definite) (hac : b₁.Acyclic ∧ b₂.Acyclic)
    (heq : ∀ g ∈ goals, g.instantiate b₂.solution = g.instantiate b₁.solution)
    (h₁ : Course kb limit levels depth pending₁ (.goals goals) b₁ (.proved c₁ nodes₁))
    (h₂ : Course kb limit levels depth pending₂ (.goals goals) b₂ e₂) :
    ∃ c₂ nodes₂, e₂ = .proved c₂ nodes₂ ∧ Interchangeable (goals.zip goals) c₁ c₂ ∧
      Covers [] c₁ goals ∧ ProvedAlike kb goals nodes₁ nodes₂ := by
  have hstart : Interchangeable (goals.zip goals) b₁ b₂ := by
    refine (Interchangeable.self hgoals hb.1 hac.1).congr hb hac fun l₁ l₂ hl => ?_
    obtain ⟨hmem, rfl⟩ := eq_of_mem_zip_self hl
    exact ⟨rfl, heq _ hmem⟩
  have hstep : InStep Interchangeable ((Task.goals goals).literals ++ [])
      ((Task.goals goals).literals ++ []) (goals.zip goals) b₁ b₂ := by
    rw [Task.literals, List.append_nil]
    exact inStep_start rfl hstart
  -- the pending goals are other ones in the two searches, and do not matter
  have h₁' := h₁.weaken (List.nil_subset _)
  have h₂' := h₂.weaken (List.nil_subset _)
  have hagree := h₁'.agree (Interchangeable.simulation hkb) h₂' (.goals rfl) hstep
  cases hagree with
  | @proved qs _ c₂ _ nodes₂ hsub hstep' hshape =>
    refine ⟨c₂, nodes₂, rfl, hstep'.related.mono hsub, fun g hg => ?_, h₁.goals_eq, h₂.goals_eq,
      hshape.mono fun l₁ l₂ hl => (hstep'.related.literals l₁ l₂ hl).2.2⟩
    have hleft : (goals.zip goals).map Prod.fst ⊆ qs.map Prod.fst := List.map_subset _ hsub
    rw [List.map_fst_zip le_rfl] at hleft
    exact hstep'.left g (hleft hg)

/-- **The proof of a group** leaves what the other one stands for alone, and leaves the two
apart, if all variables of the other one are in use besides. -/
theorem Course.keeps (hkb : kb.Meets .definite) (hb : Apart first second b)
    (hcovers : Covers pending b second)
    (h : Course kb limit levels depth pending (.goals first) b (.proved c nodes)) :
    Apart first second c ∧ Covers [] c first ∧
      ∀ l ∈ second, l.instantiate c.solution = l.instantiate b.solution := by
  obtain ⟨_, _, -, hinterchangeable, hcovered, -⟩ := h.provedAlike hkb hb.left
    ⟨hb.definite, hb.definite⟩ ⟨hb.acyclic, hb.acyclic⟩ (fun _ _ => rfl) h
  have hacc : c.Acyclic := hinterchangeable.acyclic.1
  have hfirst : ∀ g ∈ first, g.meets .regular = true :=
    fun g hg => Literal.meets_regular_of_definite (hb.left g hg)
  have hsecond : ∀ g ∈ second, g.meets .regular = true :=
    fun g hg => Literal.meets_regular_of_definite (hb.right g hg)
  have hinUse : ∀ v ∈ b.remaining second, InUse pending b v := by
    intro v hv
    rcases (hb.acyclic.inUse_of_remaining hb.definite.regular hsecond hv).1 with ⟨l, hl, hvl⟩ | hvb
    · exact hcovers l hl v hvl
    · exact .inr hvb
  have hsolved : SolvedAll kb pending first b c := h.accords
  obtain ⟨heq, hdisjoint⟩ := hsolved.keeps (hkb.mono Criterion.definite_implies_regular)
    hb.definite.regular hb.acyclic hacc hfirst hsecond hinUse hb.disjoint
  exact ⟨⟨hb.left, hb.right, hinterchangeable.definite.1, hacc, hdisjoint⟩, hcovered, heq⟩

/-- Two groups of goals are proved one after the other. -/
structure InTurn (kb : KnowledgeBase) (limit : Option Nat) (levels depth : Nat)
    (first second : List Literal) (b c d : Bindings) (nodes others : List ProofNode) : Prop where
  before : Course kb limit levels depth second (.goals first) b (.proved c nodes)
  after : Course kb limit levels depth [] (.goals second) c (.proved d others)

/-- What groups that are apart stand for is settled by their own proofs. -/
theorem InTurn.settles {others : List ProofNode} (hkb : kb.Meets .definite)
    (hb : Apart first second b)
    (h : InTurn kb limit levels depth first second b c d nodes others) :
    Apart first second c ∧ Apart first second d ∧
      (∀ g ∈ second, g.instantiate c.solution = g.instantiate b.solution) ∧
      ∀ g ∈ first, g.instantiate d.solution = g.instantiate c.solution := by
  obtain ⟨hc, hcovers, hsecond⟩ := h.before.keeps hkb hb (.self _ _)
  obtain ⟨hd, -, hfirst⟩ := h.after.keeps hkb hc.symm hcovers
  exact ⟨hc, hd.symm, hsecond, hfirst⟩

/-- **Groups that are apart** can be proved in the other order: each is proved in the same way,
and in the end both are interchangeable with what they were. -/
theorem InTurn.swap {nodes others : List ProofNode} {e : Ending} (hkb : kb.Meets .definite)
    (hb : Apart first second b)
    (h : InTurn kb limit levels depth first second b c d nodes others)
    (h' : Course kb limit levels depth [] (.goals (second ++ first)) b e) :
    ∃ d' nodes' others', e = .proved d' (others' ++ nodes') ∧
      Interchangeable (first.zip first ++ second.zip second) d d' ∧
      ProvedAlike kb first nodes nodes' ∧ ProvedAlike kb second others others' := by
  obtain ⟨hc, hd, hsecond, hfirst⟩ := h.settles hkb hb
  obtain ⟨e', hbefore, -, hrest⟩ := h'.split
  rw [List.append_nil] at hbefore
  -- the second group comes first, and stands for what it stood for after the first group
  obtain ⟨c', others', rfl, hinter₂, -, halike₂⟩ := h.after.provedAlike hkb hb.right
    ⟨hc.definite, hb.definite⟩ ⟨hc.acyclic, hb.acyclic⟩ (fun g hg => (hsecond g hg).symm) hbefore
  obtain ⟨e'', hafter, rfl⟩ := hrest c' others' rfl
  obtain ⟨hc', -, hfirst'⟩ := hbefore.keeps hkb hb.symm (.self _ _)
  obtain ⟨d', nodes', rfl, hinter₁, -, halike₁⟩ := h.before.provedAlike hkb hb.left
    ⟨hb.definite, hc'.definite⟩ ⟨hb.acyclic, hc'.acyclic⟩ hfirst' hafter
  obtain ⟨-, hd', -, hsecond'⟩ := InTurn.settles hkb hb.symm ⟨hbefore, hafter⟩
  refine ⟨d', nodes', others', rfl, ?_, halike₁, halike₂⟩
  have hfirst₂ : Interchangeable (first.zip first) d d' := by
    refine hinter₁.congr ⟨hd.definite, hd'.definite⟩ ⟨hd.acyclic, hd'.acyclic⟩ fun l₁ l₂ hl => ?_
    exact ⟨hfirst l₁ (List.of_mem_zip hl).1, rfl⟩
  have hsecond₂ : Interchangeable (second.zip second) d d' := by
    refine hinter₂.congr ⟨hd.definite, hd'.definite⟩ ⟨hd.acyclic, hd'.acyclic⟩ fun l₁ l₂ hl => ?_
    exact ⟨rfl, hsecond' l₂ (List.of_mem_zip hl).2⟩
  refine hfirst₂.append hsecond₂ ?_ ?_
  · rw [List.map_fst_zip le_rfl, List.map_fst_zip le_rfl]
    exact hd.disjoint
  · rw [List.map_snd_zip le_rfl, List.map_snd_zip le_rfl]
    exact hd'.disjoint.symm

end Groups

/-! ### Exchanged queries -/

section Queries

open Resolver

variable {kb : KnowledgeBase} {settings : Settings} {query₁ query₂ : Item}
variable {gs₁ gs₂ as bs : List Literal} {b : Bindings} {trail₁ trail₂ trail' : Trail} {n₁ n₂ : Int}
variable {tree₁ : ProofTree}

/-- The second tree proves the two groups of goals of the first one in the other order: each
in the same way, and with answers that one permutation turns into each other. -/
structure Exchanged (π : Equiv.Perm Variable) (kb : KnowledgeBase) (gs₁ gs₂ : List Literal)
    (tree₁ tree₂ : ProofTree) : Prop where
  keeps : KeepsRegular π
  proofs : ∃ nodes₁ others₁ nodes₂ others₂, tree₁.nodes = nodes₁ ++ others₁ ∧
    tree₂.nodes = others₂ ++ nodes₂ ∧ ProvedAlike kb gs₁ nodes₁ nodes₂ ∧
    ProvedAlike kb gs₂ others₁ others₂
  answers : ∃ as₁ bs₁ as₂ bs₂, as₁.length = gs₁.length ∧ bs₁.length = gs₂.length ∧
    tree₁.answer = .ok (some ((as₁ ++ bs₁).map .literal)) ∧
    tree₂.answer = .ok (some ((bs₂ ++ as₂).map .literal)) ∧
    List.Forall₂ (fun l m => (l.rename π == m) = true) as₁ as₂ ∧
    List.Forall₂ (fun l m => (l.rename π == m) = true) bs₁ bs₂

/-- Groups whose instances share no variable are apart. -/
theorem apart_of_substitute (hg : ∀ g ∈ gs₁ ++ gs₂, g.meets .definite = true)
    (hb : b.Meets .definite) (hac : b.Acyclic)
    (has : (gs₁.map Item.literal).mapM b.substitute = .ok (as.map .literal))
    (hbs : (gs₂.map Item.literal).mapM b.substitute = .ok (bs.map .literal))
    (hdisjoint : ∀ l ∈ as, ∀ m ∈ bs, ∀ v ∈ l.occurrences, v ∉ m.occurrences) :
    Apart gs₁ gs₂ b := by
  obtain ⟨hg₁, hg₂⟩ := List.forall_mem_append.1 hg
  have hinstances : ∀ {gs ls : List Literal}, (∀ g ∈ gs, g.meets .definite = true) →
      (gs.map Item.literal).mapM b.substitute = .ok (ls.map .literal) →
      ls = gs.map (Literal.instantiate b.solution) := by
    intro gs ls hgs hls
    have heq := mapM_substitute_eq hac hb.regular
      fun g hmem => Literal.meets_regular_of_definite (hgs g hmem)
    have hinjective : Function.Injective Item.literal := fun _ _ => Item.literal.inj
    exact List.map_injective_iff.2 hinjective (Except.ok.inj (hls.symm.trans heq))
  obtain rfl := hinstances hg₁ has
  obtain rfl := hinstances hg₂ hbs
  refine ⟨hg₁, hg₂, hb, hac, fun v hvl hvm => ?_⟩
  obtain ⟨l, hl, hvl⟩ := Bindings.mem_remaining.1 hvl
  obtain ⟨m, hm, hvm⟩ := Bindings.mem_remaining.1 hvm
  exact hdisjoint _ (List.mem_map_of_mem hl) _ (List.mem_map_of_mem hm) v hvl hvm

/-- Proofs of groups that are interchangeable, in either order, are exchanged. -/
theorem Interchangeable.exchanged {c d : Bindings} {nodes nodes' others others' : List ProofNode}
    (hg : ∀ g ∈ gs₁ ++ gs₂, g.meets .regular = true)
    (h : Interchangeable (gs₁.zip gs₁ ++ gs₂.zip gs₂) c d)
    (hnodes : ProvedAlike kb gs₁ nodes nodes') (hothers : ProvedAlike kb gs₂ others others') :
    ∃ π, Exchanged π kb gs₁ gs₂
      ⟨(gs₁ ++ gs₂).map .literal, some (c, nodes ++ others)⟩
      ⟨(gs₂ ++ gs₁).map .literal, some (d, others' ++ nodes')⟩ := by
  obtain ⟨π, hπ, hrenames⟩ := h.exists_renaming
  have hg' : ∀ g ∈ gs₂ ++ gs₁, g.meets .regular = true :=
    fun g hmem => hg g (List.mem_append.2 (List.mem_append.1 hmem).symm)
  refine ⟨π, hπ, ⟨nodes, others, nodes', others', rfl, rfl, hnodes, hothers⟩, ?_⟩
  refine ⟨gs₁.map (Literal.instantiate c.solution), gs₂.map (Literal.instantiate c.solution),
    gs₁.map (Literal.instantiate d.solution), gs₂.map (Literal.instantiate d.solution),
    List.length_map _, List.length_map _, ?_, ?_, ?_, ?_⟩
  · rw [← List.map_append]
    exact answer_eq h.acyclic.1 h.definite.1.regular hg
  · rw [← List.map_append]
    exact answer_eq h.acyclic.2 h.definite.2.regular hg'
  · rw [List.forall₂_map_left_iff, List.forall₂_map_right_iff]
    exact List.forall₂_iff_zip.2
      ⟨rfl, fun {l₁ l₂} hl => hrenames l₁ l₂ (List.mem_append_left _ hl)⟩
  · rw [List.forall₂_map_left_iff, List.forall₂_map_right_iff]
    exact List.forall₂_iff_zip.2
      ⟨rfl, fun {l₁ l₂} hl => hrenames l₁ l₂ (List.mem_append_right _ hl)⟩

/-- A query of two groups that is proved proves them one after the other. -/
theorem inTurn_of_prove {levels : Nat} (h : WellPosed kb query₁ (gs₁ ++ gs₂) b)
    (htrail₁ : trail₁.source = ⟨.int n₁⟩)
    (hprove : prove kb settings levels query₁ b trail₁ = (.proved tree₁, trail'))
    (hvalid : tree₁.isValid = true) :
    ∃ c d nodes others, tree₁ = ⟨(gs₁ ++ gs₂).map .literal, some (d, nodes ++ others)⟩ ∧
      InTurn kb settings.maxDepth levels 0 gs₁ gs₂ b c d nodes others := by
  obtain ⟨e, hcourse, hreports⟩ := course_of_prove settings levels h htrail₁
  rw [hprove] at hreports
  generalize ho : Outcome.proved tree₁ = o at hreports
  cases hreports with
  | valid d all =>
    obtain rfl := Outcome.proved.inj ho
    obtain ⟨e', hfirst, hhalt, hrest⟩ := hcourse.split
    rw [List.append_nil] at hfirst
    cases e' with
    | proved c nodes =>
      obtain ⟨e'', hsecond, he⟩ := hrest c nodes rfl
      obtain ⟨others, rfl, rfl⟩ := Ending.exists_of_after he.symm
      exact ⟨c, d, nodes, others, rfl, hfirst, hsecond⟩
    | failed => cases hhalt rfl
    | tooDeep => cases hhalt rfl
    | endless => cases hhalt rfl
  | invalid =>
    obtain rfl := Outcome.proved.inj ho
    cases hvalid
  | tooDeep => cases ho
  | endless => cases ho

/-- **Goals without common variables commute**: a query of two groups of goals whose
instances share no variable is proved in the other order too if it is proved, by the same
means and with the same answers up to a renaming. -/
theorem prove_exchanged (h : WellPosed kb query₁ (gs₁ ++ gs₂) b)
    (hquery₂ : goalsOf query₂ = .ok ((gs₂ ++ gs₁).map .literal)) (hkb : kb.Meets .definite)
    (hg : ∀ g ∈ gs₁ ++ gs₂, g.meets .definite = true) (hb : b.Meets .definite)
    (has : (gs₁.map Item.literal).mapM b.substitute = .ok (as.map .literal))
    (hbs : (gs₂.map Item.literal).mapM b.substitute = .ok (bs.map .literal))
    (hdisjoint : ∀ l ∈ as, ∀ m ∈ bs, ∀ v ∈ l.occurrences, v ∉ m.occurrences)
    (htrail₁ : trail₁.source = ⟨.int n₁⟩) (htrail₂ : trail₂.source = ⟨.int n₂⟩)
    (hends : Ends kb settings query₁ b trail₁ (.proved tree₁, trail'))
    (hvalid : tree₁.isValid = true) :
    ∃ tree₂ trail'' π, Ends kb settings query₂ b trail₂ (.proved tree₂, trail'') ∧
      tree₂.isValid = true ∧ Exchanged π kb gs₁ gs₂ tree₁ tree₂ := by
  have hapart := apart_of_substitute hg hb h.acyclic has hbs hdisjoint
  have h₂ : WellPosed kb query₂ (gs₂ ++ gs₁) b := by
    refine ⟨h.kb, hquery₂, fun g hmem => h.goals g ?_, h.start, h.acyclic⟩
    exact List.mem_append.2 (List.mem_append.1 hmem).symm
  obtain ⟨levels, hprove, -⟩ := hends
  obtain ⟨c, d, nodes, others, rfl, hinTurn⟩ := inTurn_of_prove h htrail₁ hprove hvalid
  -- the nesting that suffices for the one order suffices for the other
  obtain ⟨e, hcourse, hreports⟩ := course_of_prove settings levels h₂ htrail₂
  obtain ⟨d', nodes', others', rfl, hinterchangeable, hnodes, hothers⟩ :=
    hinTurn.swap hkb hapart hcourse
  have hproved := hreports.eq_of_proved
  obtain ⟨π, hπ⟩ := hinterchangeable.exchanged h.regular.1 hnodes hothers
  refine ⟨_, (prove kb settings levels query₂ b trail₂).2, π, ⟨levels, Prod.ext hproved rfl, ?_⟩,
    rfl, hπ⟩
  simp

end Queries

namespace Family

/-- The descendants of the one that the bindings give. -/
def descendants : List Literal := [ancestor (someone "X") (someone "Y")]

/-- The children of the same one. -/
def children : List Literal := [parent (someone "X") (someone "W")]

theorem wellPosed_descendants : WellPosed clauses
    (.list ((descendants ++ children).map .literal)) (descendants ++ children) start where
  kb := wellPosed.kb
  query := rfl
  goals := by decide
  start := wellPosed.start
  acyclic := wellPosed.acyclic

end Family

open Family in
/-- A descendant and a child of the one that the bindings give are found in either order: the
goals share that variable, but no variable that is left. -/
theorem exchanged_family : ∃ tree₁ tree₂ trail' trail'' π,
    Resolver.Ends clauses {} (.list ((descendants ++ children).map .literal)) start
      { source := ⟨.int 5⟩ } (.proved tree₁, trail') ∧ tree₁.isValid = true ∧
    Resolver.Ends clauses {} (.list ((children ++ descendants).map .literal)) start
      { source := {} } (.proved tree₂, trail'') ∧ tree₂.isValid = true ∧
    Exchanged π clauses descendants children tree₁ tree₂ := by
  obtain ⟨tree₁, trail', hprove, hvalid⟩ : ∃ tree trail', Resolver.prove clauses {} 9
      (.list ((descendants ++ children).map .literal)) start { source := ⟨.int 5⟩ } =
        (.proved tree, trail') ∧ tree.isValid = true :=
    ⟨_, _, by cbv, by cbv⟩
  have hends₁ : Resolver.Ends clauses {} (.list ((descendants ++ children).map .literal)) start
      { source := ⟨.int 5⟩ } (.proved tree₁, trail') := ⟨9, hprove, by simp⟩
  have hstart : start.Meets .definite :=
    ⟨List.forall_mem_singleton.2 ⟨_, _, rfl, rfl, rfl⟩, List.nodup_singleton _⟩
  have has : (descendants.map Item.literal).mapM start.substitute =
      .ok ([ancestor (person "tom") (someone "Y")].map .literal) := by
    cbv
  have hbs : (children.map Item.literal).mapM start.substitute =
      .ok ([parent (person "tom") (someone "W")].map .literal) := by
    cbv
  have hdisjoint : ∀ l ∈ [ancestor (person "tom") (someone "Y")],
      ∀ m ∈ [parent (person "tom") (someone "W")], ∀ v ∈ l.occurrences, v ∉ m.occurrences := by
    simp [ancestor, parent, person, someone, Literal.occurrences, Term.occurrencesList,
      Term.occurrences, Variable.named]
  let trail₂ : Trail := { source := {} }
  have htrail₂ : trail₂.source = ⟨.int 1⟩ := rfl
  have hquery₂ : Resolver.goalsOf (.list ((children ++ descendants).map .literal)) =
      .ok ((children ++ descendants).map .literal) := rfl
  obtain ⟨tree₂, trail'', π, hends₂, hvalid₂, hexchanged⟩ := prove_exchanged
    wellPosed_descendants hquery₂ ⟨by decide, by decide⟩ (by decide) hstart has hbs hdisjoint
    rfl htrail₂ hends₁ hvalid
  exact ⟨tree₁, tree₂, trail', trail'', π, hends₁, hvalid, hends₂, hvalid₂, hexchanged⟩

end HornSearch
