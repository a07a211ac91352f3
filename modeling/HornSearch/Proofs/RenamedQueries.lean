/-
HornSearch/Proofs/RenamedQueries.lean

The search does not depend on the names of variables, nor on the serials that were drawn
before.  Two searches are related (`Renamed`) if one permutation of all variables carries the
bindings and the literals in play of the first onto those of the second.  The permutation is
changed whenever a rule is copied: the two copies are variants of each other, and share no
variable with what the permutation carries already, so there is a permutation that agrees
with the old one there and carries the one copy onto the other (`Renamed.copy`).

So renamed queries to renamed knowledge bases end together, with renamed trees, bindings and
answers, or stopped at renamed goals (`prove_renamed`).  One thing does depend on serials: a
goal with a serial that is too large has no text, and then the limit does not stop the search
by its own fault (`renamed_circle_unwritten`).
-/
import HornSearch.Proofs.Consequence
import HornSearch.Proofs.Lockstep

namespace HornSearch

variable {kb₁ kb₂ : KnowledgeBase} {ps : Pairing} {b₁ b₂ c₁ c₂ : Bindings} {l₁ l₂ : Literal}

/-! ### Renamed states -/

section States

variable {π : Equiv.Perm Variable}

/-- The permutation carries the first bindings and literals onto the second ones. -/
structure Carries (π : Equiv.Perm Variable) (ps : Pairing) (b₁ b₂ : Bindings) : Prop where
  keeps : KeepsRegular π
  bindings : b₂ = b₁.rename π
  literals : ∀ l₁ l₂, (l₁, l₂) ∈ ps → l₁.meets .regular = true ∧ l₂ = l₁.rename π
  regular : b₁.Meets .regular
  acyclic : b₁.Acyclic

/-- Some permutation carries the first bindings and literals onto the second ones. -/
def Renamed (ps : Pairing) (b₁ b₂ : Bindings) : Prop := ∃ π, Carries π ps b₁ b₂

/-- Unifying renamed literals gives renamed bindings, or fails on both sides. -/
theorem Renamed.unify {m₁ m₂ : Literal} {r₁ r₂ : Option Bindings} (h : Renamed ps b₁ b₂)
    (hl : (l₁, l₂) ∈ ps) (hm : (m₁, m₂) ∈ ps) (h₁ : unifyLiterals l₁ m₁ b₁ = .ok r₁)
    (h₂ : unifyLiterals l₂ m₂ b₂ = .ok r₂) : Option.Rel (Renamed ps) r₁ r₂ := by
  obtain ⟨π, hπ⟩ := h
  obtain ⟨hl₁, rfl⟩ := hπ.literals _ _ hl
  obtain ⟨hm₁, rfl⟩ := hπ.literals _ _ hm
  obtain rfl := hπ.bindings
  have hrenamed := unifyLiterals_rename hl₁ hm₁ hπ.regular hπ.acyclic hπ.keeps.isRenaming h₁
  obtain rfl := Except.ok.inj (h₂.symm.trans hrenamed)
  cases r₁ with
  | none => exact .none
  | some c =>
    have hjoined : Joined l₁ m₁ b₁ c := ⟨hl₁, hm₁, hπ.regular, h₁⟩
    exact .some ⟨π, hπ.keeps, rfl, hπ.literals, hjoined.meets, hjoined.acyclic hπ.acyclic⟩

namespace Carries

variable {v : Variable}

theorem snd_eq (h : Carries π ps b₁ b₂) :
    ps.map Prod.snd = (ps.map Prod.fst).map (Literal.rename π) := by
  rw [List.map_map]
  exact List.map_congr_left fun l hl => (h.literals l.1 l.2 hl).2

theorem isRegular (h : Carries π ps b₁ b₂) (hv : InUse (ps.map Prod.fst) b₁ v) :
    v.isRegular = true := by
  refine hv.isRegular (List.forall_mem_map.2 fun l hl => ?_) h.regular
  exact (h.literals l.1 l.2 hl).1

/-- What is in use on the one side is carried to what is in use on the other. -/
theorem inUse (h : Carries π ps b₁ b₂) (hv : InUse (ps.map Prod.fst) b₁ v) :
    InUse (ps.map Prod.snd) b₂ (π v) := by
  rw [h.snd_eq, h.bindings]
  exact hv.rename

/-- Another permutation does as well if it agrees on all that is in use. -/
theorem congr {τ : Equiv.Perm Variable} (h : Carries π ps b₁ b₂) (hkeeps : KeepsRegular τ)
    (heq : ∀ v, InUse (ps.map Prod.fst) b₁ v → τ v = π v) : Carries τ ps b₁ b₂ where
  keeps := hkeeps
  bindings := by
    rw [h.bindings]
    exact h.regular.rename_congr fun v hv => (heq v (.inr hv)).symm
  literals l₁ l₂ hl := by
    obtain ⟨hl₁, rfl⟩ := h.literals _ _ hl
    refine ⟨hl₁, Literal.rename_congr fun v hv => (heq v (.inl ⟨l₁, ?_, hv⟩)).symm⟩
    exact List.mem_map.2 ⟨_, hl, rfl⟩
  regular := h.regular
  acyclic := h.acyclic

end Carries

/-- **Fresh copies of renamed rules** can be carried onto each other besides all else. -/
theorem Renamed.copy {rule₁ rule₂ copy₁ copy₂ : Rule} (h : Renamed ps b₁ b₂)
    (hrule : rule₁.meets .regular = true) (hrules : rule₂.IsVariant rule₁)
    (hcopy₁ : FreshCopy rule₁ copy₁ (ps.map Prod.fst) b₁)
    (hcopy₂ : FreshCopy rule₂ copy₂ (ps.map Prod.snd) b₂) :
    Renamed (copy₁.pairs copy₂ ++ ps) b₁ b₂ := by
  obtain ⟨π, hπ⟩ := h
  have hvariant : copy₂.IsVariant copy₁ :=
    (hcopy₁.isVariant.symm.trans hrules).trans hcopy₂.isVariant
  obtain ⟨κ, rfl, hκ⟩ := hvariant
  have hmem : ∀ v ∈ copy₁.occurrences, κ v ∈ (copy₁.rename κ).occurrences :=
    fun v hv => Rule.mem_occurrences_rename.2 ⟨v, hv, rfl⟩
  obtain ⟨old, hold⟩ := exists_inUse (ps.map Prod.fst) hπ.regular
  have hold' : ∀ v ∈ old, v.isRegular = true := fun v hv => hπ.isRegular ((hold v).1 hv)
  obtain ⟨τ, hkeeps, hτold, hτcopy⟩ := hπ.keeps.extend hold' hcopy₁.regular
    (fun v hv => hcopy₂.regular _ (hmem v hv)) hκ
    (fun v hv => hcopy₁.not_inUse ((hold v).1 hv))
    (fun v hv w hw heq => hcopy₂.not_inUse (hπ.inUse ((hold v).1 hv)) (heq ▸ hmem w hw))
  have hτ := hπ.congr hkeeps fun v hv => hτold v ((hold v).2 hv)
  refine ⟨τ, hkeeps, hτ.bindings, ?_, hπ.regular, hπ.acyclic⟩
  intro l₁ l₂ hl
  rcases List.mem_append.1 hl with hl | hl
  · obtain ⟨hl₁, rfl⟩ := eq_of_mem_zip_map (f := Literal.rename κ) hl
    refine ⟨Rule.meets_literals (hcopy₁.meets (p := .regular) (fun _ h => h) hrule) l₁ hl₁, ?_⟩
    refine Literal.rename_congr fun v hv => (hτcopy v ?_).symm
    exact Rule.mem_occurrences_iff.2 ⟨l₁, hl₁, hv⟩
  · exact hτ.literals _ _ hl

/-- **Renaming is a simulation** of knowledge bases with the same facts and with rules that
are variants of each other. -/
theorem Renamed.simulation (hkb₁ : kb₁.Meets .regular) (hfacts : kb₂.facts = kb₁.facts)
    (hrules : List.Forall₂ Rule.IsVariant kb₂.rules kb₁.rules) :
    Simulation kb₁ kb₂ Renamed where
  facts := hfacts.symm
  ground f hf := Literal.isGround_iff.1 (hkb₁.facts f hf).2
  rules := hrules.flip.imp fun r₁ r₂ h =>
    ⟨(Rule.IsVariant.predicate h).symm, (Rule.IsVariant.length h).symm⟩
  bindings := by
    rintro ps b₁ b₂ ⟨π, hπ⟩
    obtain rfl := hπ.bindings
    exact ⟨hπ.regular, Bindings.regular_rename hπ.keeps.isRenaming hπ.regular⟩
  pair := by
    rintro ps b₁ b₂ l₁ l₂ ⟨π, hπ⟩ hl
    obtain ⟨hl₁, rfl⟩ := hπ.literals _ _ hl
    exact ⟨hl₁, Literal.meets_rename hπ.keeps.isRenaming.regular hl₁, rfl⟩
  fact := by
    rintro ps b₁ b₂ f ⟨π, hπ⟩ hf
    obtain ⟨hregular, hground⟩ := hkb₁.facts f hf
    refine ⟨π, hπ.keeps, hπ.bindings, ?_, hπ.regular, hπ.acyclic⟩
    intro l₁ l₂ hl
    rcases List.mem_cons.1 hl with heq | hl
    · obtain ⟨rfl, rfl⟩ := Prod.mk.inj heq
      exact ⟨hregular, (Literal.rename_of_isGround hground).symm⟩
    · exact hπ.literals _ _ hl
  copy := by
    intro ps b₁ b₂ r₁ r₂ copy₁ copy₂ h hr hcopy₁ hcopy₂
    have hvariant := (List.forall₂_iff_zip.1 hrules.flip).2 hr
    exact h.copy (hkb₁.rules r₁ (List.of_mem_zip hr).1) hvariant hcopy₁ hcopy₂
  unify := fun h hl hm h₁ h₂ => h.unify hl hm h₁ h₂

end States

/-! ### Renamed results -/

/-- Renames a query, and its bindings and its proofs. -/
def ProofTree.rename (ρ : Variable → Variable) (tree : ProofTree) : ProofTree where
  query := tree.query.map (Item.rename ρ)
  proof := tree.proof.map fun proof => (proof.1.rename ρ, ProofNode.renameAll ρ proof.2)

/-- Proofs of the same shape, with renamed literals throughout, are renamed proofs. -/
theorem SameShape.eq_renameAll {ρ : Variable → Variable} {nodes₁ nodes₂ : List ProofNode}
    (h : SameShape kb₁ kb₂ (fun l₁ l₂ => l₂ = l₁.rename ρ) nodes₁ nodes₂) :
    nodes₂ = ProofNode.renameAll ρ nodes₁ := by
  induction h with
  | nil => rfl
  | fact hgoal hfact _ ih =>
    rw [ProofNode.renameAll, ProofNode.rename, ← hgoal, ← hfact, ← ih]
  | @rule goal₁ goal₂ rule₁ rule₂ copy₁ copy₂ _ _ _ _ _ hgoal _ _ _ hcopy _ _ ihchildren ih =>
    obtain ⟨hhead, hbody⟩ := List.forall₂_cons.1 hcopy
    have hbodies : copy₂.body = copy₁.body.map (Literal.rename ρ) := by
      obtain ⟨hlength, hzip⟩ := List.forall₂_iff_zip.1 hbody
      exact eq_map_of_zip hlength fun l m hlm => hzip hlm
    have hcopies : copy₂ = copy₁.rename ρ := by
      rw [Rule.rename, ← hhead, ← hbodies]
    rw [ProofNode.renameAll, ProofNode.rename, ← hgoal, ← hcopies, ← ihchildren, ← ih]

/-- One permutation renames the bindings, the tree and the answer of the first query as those
of the second. -/
def SameUpToNames (kb₁ kb₂ : KnowledgeBase) (tree₁ tree₂ : ProofTree) : Prop :=
  ∃ (π : Equiv.Perm Variable) (c : Bindings) (nodes : List ProofNode) (answers : List Literal),
    KeepsRegular π ∧ tree₂ = tree₁.rename π ∧ tree₁.proof = some (c, nodes) ∧
    SameShape kb₁ kb₂ (fun l₁ l₂ => l₂ = l₁.rename π) nodes (ProofNode.renameAll π nodes) ∧
    tree₁.answer = .ok (some (answers.map .literal)) ∧
    tree₂.answer = .ok (some ((answers.map (Literal.rename π)).map .literal))

/-- A permutation renames the one literal as the other. -/
def Literal.IsRenamed (l₁ l₂ : Literal) : Prop :=
  ∃ π : Equiv.Perm Variable, KeepsRegular π ∧ l₂ = l₁.rename π

/-- What paired literals stand for is renamed as they are. -/
theorem Renamed.isRenamed (h : Renamed ps b₁ b₂) (hl : (l₁, l₂) ∈ ps) :
    (l₁.instantiate b₁.solution).IsRenamed (l₂.instantiate b₂.solution) := by
  obtain ⟨π, hπ⟩ := h
  obtain ⟨hl₁, rfl⟩ := hπ.literals _ _ hl
  obtain rfl := hπ.bindings
  exact ⟨π, hπ.keeps,
    hπ.acyclic.literal_solution_rename hπ.regular hπ.keeps.isRenaming hl₁⟩

section Queries

open Resolver

variable {settings₁ settings₂ : Settings} {query₁ query₂ : Item} {goals : List Literal}
variable {b : Bindings} {trail₁ trail₂ : Trail} {n₁ n₂ : Int} {ρ : Variable → Variable}

/-- A renaming of what is in use is part of a permutation. -/
theorem exists_perm_inUse (hg : ∀ g ∈ goals, g.meets .regular = true) (hb : b.Meets .regular)
    (hρ : ∀ v, InUse goals b v → (ρ v).isRegular = true)
    (hinj : ∀ v w, InUse goals b v → InUse goals b w → ρ v = ρ w → v = w) :
    ∃ π : Equiv.Perm Variable, KeepsRegular π ∧ ∀ v, InUse goals b v → π v = ρ v := by
  obtain ⟨vs, hvs⟩ := exists_inUse goals hb
  have hvs' : ∀ v ∈ vs, v.isRegular = true := fun v hv => ((hvs v).1 hv).isRegular hg hb
  obtain ⟨π, hπ, heq⟩ := exists_perm hvs' (fun v hv => hρ v ((hvs v).1 hv))
    (fun v hv w hw => hinj v w ((hvs v).1 hv) ((hvs w).1 hw))
  exact ⟨π, hπ, fun v hv => heq v ((hvs v).2 hv)⟩

/-- Renamed goals and bindings are related at the start. -/
theorem renamed_start (hg : ∀ g ∈ goals, g.meets .regular = true) (hb : b.Meets .regular)
    (hac : b.Acyclic) (hρ : ∀ v, InUse goals b v → (ρ v).isRegular = true)
    (hinj : ∀ v w, InUse goals b v → InUse goals b w → ρ v = ρ w → v = w) :
    Renamed (goals.zip (goals.map (Literal.rename ρ))) b (b.rename ρ) := by
  obtain ⟨π, hπ, heq⟩ := exists_perm_inUse hg hb hρ hinj
  refine ⟨π, hπ, ?_, ?_, hb, hac⟩
  · exact hb.rename_congr fun v hv => (heq v (.inr hv)).symm
  · intro l₁ l₂ hl
    obtain ⟨hl₁, rfl⟩ := eq_of_mem_zip_map hl
    exact ⟨hg l₁ hl₁, Literal.rename_congr fun v hv => (heq v (.inl ⟨l₁, hl₁, hv⟩)).symm⟩

theorem ProofTree.rename_mk (goals : List Literal) (c : Bindings) (nodes : List ProofNode) :
    (ProofTree.mk (goals.map .literal) (some (c, nodes))).rename ρ =
      ⟨(goals.map (Literal.rename ρ)).map .literal,
        some (c.rename ρ, ProofNode.renameAll ρ nodes)⟩ := by
  rw [rename, List.map_map, List.map_map]
  rfl

/-- The answer of a renamed tree is the renamed answer. -/
theorem answer_rename_eq {c : Bindings} {nodes : List ProofNode} (hac : c.Acyclic)
    (h : c.Meets .regular) (hg : ∀ g ∈ goals, g.meets .regular = true) (hρ : IsRenaming ρ) :
    ((ProofTree.mk (goals.map .literal) (some (c, nodes))).rename ρ).answer =
      .ok (some (((goals.map (Literal.instantiate c.solution)).map (Literal.rename ρ)).map
        .literal)) := by
  have hg' : ∀ g ∈ goals.map (Literal.rename ρ), g.meets .regular = true :=
    List.forall_mem_map.2 fun g hmem => Literal.meets_rename hρ.regular (hg g hmem)
  have hanswers : (goals.map (Literal.rename ρ)).map (Literal.instantiate (c.rename ρ).solution) =
      (goals.map (Literal.instantiate c.solution)).map (Literal.rename ρ) := by
    rw [List.map_map, List.map_map]
    exact List.map_congr_left fun g hmem => hac.literal_solution_rename h hρ (hg g hmem)
  rw [ProofTree.rename_mk, ← hanswers]
  exact answer_eq (hac.rename hρ.injective) (Bindings.regular_rename hρ h) hg'

/-- Proofs of renamed goals, under renamed bindings, are the same up to names. -/
theorem Renamed.sameUpToNames {goals' : List Literal} {qs : Pairing} {c₁ c₂ : Bindings}
    {nodes₁ nodes₂ : List ProofNode} (hg : ∀ g ∈ goals, g.meets .regular = true)
    (hlength : goals.length = goals'.length) (hsub : goals.zip goals' ⊆ qs)
    (h : Renamed qs c₁ c₂) (hshape : SameShape kb₁ kb₂ (fun l₁ l₂ => (l₁, l₂) ∈ qs) nodes₁ nodes₂) :
    SameUpToNames kb₁ kb₂ ⟨goals.map .literal, some (c₁, nodes₁)⟩
      ⟨goals'.map .literal, some (c₂, nodes₂)⟩ := by
  obtain ⟨π, hπ⟩ := h
  obtain rfl := hπ.bindings
  obtain rfl : goals' = goals.map (Literal.rename π) :=
    eq_map_of_zip hlength fun l m hl => (hπ.literals l m (hsub hl)).2
  have hrenamed := hshape.mono fun l₁ l₂ hl => (hπ.literals l₁ l₂ hl).2
  obtain rfl := hrenamed.eq_renameAll
  rw [← ProofTree.rename_mk]
  refine ⟨π, c₁, nodes₁, goals.map (Literal.instantiate c₁.solution), hπ.keeps, rfl, rfl,
    hrenamed, ?_, ?_⟩
  · exact answer_eq hπ.acyclic hπ.regular hg
  · exact answer_rename_eq hπ.acyclic hπ.regular hg hπ.keeps.isRenaming

/-- **The search does not depend on names or on serials**: queries that are renamed, to
knowledge bases whose rules are, end together and come to the same but for the names,
whatever serials are drawn. -/
theorem prove_renamed (h₁ : WellPosed kb₁ query₁ goals b)
    (h₂ : WellPosed kb₂ query₂ (goals.map (Literal.rename ρ)) (b.rename ρ))
    (hfacts : kb₂.facts = kb₁.facts) (hrules : List.Forall₂ Rule.IsVariant kb₂.rules kb₁.rules)
    (hinj : ∀ v w, InUse goals b v → InUse goals b w → ρ v = ρ w → v = w)
    (hlimit : settings₂.maxDepth = settings₁.maxDepth)
    (htrail₁ : trail₁.source = ⟨.int n₁⟩) (htrail₂ : trail₂.source = ⟨.int n₂⟩) :
    ((∃ r₁, Ends kb₁ settings₁ query₁ b trail₁ r₁) ↔
      ∃ r₂, Ends kb₂ settings₂ query₂ (b.rename ρ) trail₂ r₂) ∧
    ∀ r₁ r₂, Ends kb₁ settings₁ query₁ b trail₁ r₁ →
      Ends kb₂ settings₂ query₂ (b.rename ρ) trail₂ r₂ →
      SameOutcome (SameUpToNames kb₁ kb₂) Literal.IsRenamed r₁.1 r₂.1 := by
  obtain ⟨hg, hb⟩ := h₁.regular
  obtain ⟨hg₂, hb₂⟩ := h₂.regular
  have hρ : ∀ v, InUse goals b v → (ρ v).isRegular = true :=
    fun v hv => InUse.isRegular hg₂ hb₂ hv.rename
  have hkb : kb₁.Meets .regular := h₁.kb.mono Criterion.legible_implies_regular
  have hlength : goals.length = (goals.map (Literal.rename ρ)).length := (List.length_map _).symm
  have hstart := renamed_start hg hb h₁.acyclic hρ hinj
  refine ends_together (Renamed.simulation hkb hfacts hrules) h₁ h₂ hlimit hlength hstart
    htrail₁ htrail₂ ?_ ?_
  · intro qs c₁ c₂ nodes₁ nodes₂ hsub hrenamed hshape
    exact hrenamed.sameUpToNames hg hlength hsub hshape
  · intro qs c₁ c₂ goal₁ goal₂ hrenamed hgoal
    exact hrenamed.isRenamed hgoal

end Queries

namespace Family

/-- The variable of the same name with the next serial. -/
def later (v : Variable) : Variable :=
  match v.serial with
  | .int n => { v with serial := .int (n + 1) }
  | _ => v

theorem later_injective : Function.Injective later := by
  rintro ⟨x, s⟩ ⟨y, t⟩ h
  cases s <;> cases t <;> simp_all [later]

/-- The knowledge base with other variables in its first rule. -/
def laterClauses : KnowledgeBase := .ofList [
  .fact (parent (person "tom") (person "bob")),
  .fact (parent (person "bob") (person "ann")),
  .rule ((⟨ancestor (someone "X") (someone "Z"),
    [parent (someone "X") (someone "Y"), ancestor (someone "Y") (someone "Z")]⟩ : Rule).rename
    later),
  .rule ⟨ancestor (someone "X") (someone "Y"), [parent (someone "X") (someone "Y")]⟩]

theorem laterClauses_isVariant :
    List.Forall₂ Rule.IsVariant laterClauses.rules clauses.rules := by
  refine .cons ⟨later, rfl, ?_⟩ (.cons ⟨fun v => v, (Rule.rename_id _).symm, ?_⟩ .nil)
  · exact fun v _ w _ h => later_injective h
  · exact fun v _ w _ h => h

theorem wellPosed_later :
    WellPosed laterClauses (.list ((Family.goals.map (Literal.rename later)).map .literal))
      (Family.goals.map (Literal.rename later)) (start.rename later) where
  kb := ⟨by decide, by decide⟩
  query := rfl
  goals := by decide
  start := ⟨List.forall_mem_singleton.2 ⟨_, _, rfl, rfl, rfl⟩, List.nodup_singleton _⟩
  acyclic := start_acyclic.rename later_injective

end Family

open Family in
/-- Other variables and other serials lead to the same tree but for the names. -/
theorem renamed_family :
    ∃ r₁ r₂, Resolver.Ends clauses {} (.list (Family.goals.map .literal)) start
        { source := ⟨.int 5⟩ } r₁ ∧
      Resolver.Ends laterClauses {} (.list ((Family.goals.map (Literal.rename later)).map
        .literal)) (start.rename later) { source := ⟨.int 40⟩ } r₂ ∧
      (∃ tree, r₁.1 = .proved tree ∧ tree.isValid = true) ∧
      SameOutcome (SameUpToNames clauses laterClauses) Literal.IsRenamed r₁.1 r₂.1 := by
  obtain ⟨tree, trail, hends₁, hvalid⟩ := Family.exists_ends
  let settings : Settings := {}
  let trail₁ : Trail := { source := ⟨.int 5⟩ }
  let trail₂ : Trail := { source := ⟨.int 40⟩ }
  have hlimit : settings.maxDepth = settings.maxDepth := rfl
  have htrail₁ : trail₁.source = ⟨.int 5⟩ := rfl
  have htrail₂ : trail₂.source = ⟨.int 40⟩ := rfl
  obtain ⟨hiff, hsame⟩ := prove_renamed wellPosed wellPosed_later rfl laterClauses_isVariant
    (fun v w _ _ h => later_injective h) hlimit htrail₁ htrail₂
  obtain ⟨r₂, hends₂⟩ := hiff.1 ⟨_, hends₁⟩
  exact ⟨_, r₂, hends₁, hends₂, ⟨tree, rfl, hvalid⟩, hsame _ _ hends₁ hends₂⟩

open Roundabout Numeral in
/-- Two questions that are renamed, by serials: the limit stops both, but only the first one
by its own fault.  The serials that the second one draws are too large to be written. -/
theorem renamed_circle_unwritten :
    (∃ r₁ N goal, Resolver.Ends (clauses (.var (.named "X"))) { maxDepth := some 1 }
      (.literal (around (.var (.named "Z")))) .empty { source := {} } r₁ ∧
        r₁.1 = .stopped (.depthLimit N goal)) ∧
    ∃ r₂, Resolver.Ends (clauses (.var (.named "X"))) { maxDepth := some 1 }
      (.literal (around (.var ⟨.str "Z", .int (huge - 1)⟩))) .empty { source := {} } r₂ ∧
        r₂.1 = .stopped (.numeral .tooLong) := by
  obtain ⟨N, goal, hfirst⟩ : ∃ N goal, (Resolver.prove (clauses (.var (.named "X")))
      { maxDepth := some 1 } 3 (.literal (around (.var (.named "Z")))) .empty
        { source := {} }).1 = .stopped (.depthLimit N goal) :=
    Outcome.isDepthLimit_iff.1 (by decide +kernel)
  have hsecond : (Resolver.prove (clauses (.var (.named "X"))) { maxDepth := some 1 } 3
      (.literal (around (.var ⟨.str "Z", .int (huge - 1)⟩))) .empty { source := {} }).1 =
        .stopped (.numeral .tooLong) :=
    Outcome.isTooLong_iff.1 (by decide +kernel)
  obtain ⟨r₁, hends₁, hr₁⟩ := Resolver.exists_ends_of_stopped hfirst (by simp)
  exact ⟨⟨r₁, N, goal, hends₁, hr₁⟩, Resolver.exists_ends_of_stopped hsecond (by simp)⟩

end HornSearch
