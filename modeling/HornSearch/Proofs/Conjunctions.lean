/-
HornSearch/Proofs/Conjunctions.lean

Conjunctions split.  Asking for the goals of two lists at once comes to the same as asking for
those of the first and then, under the bindings that this ends with and of the same source of
serials, for those of the second (`prove_append`).

The search itself goes through the goals from left to right, so it splits anywhere
(`Resolver.solveGoals_append`).  But each query first moves the source past all that it finds in
play, and the second one finds more than the whole query did: the bindings of the first.  It
moves nothing, since all of these are below the next serial when the first query is done, and
goals that are below the serial at the beginning do not move the whole query further than the
first (`StartsAt.append`, `StartsAt.eq_of_within`).
-/
import HornSearch.Proofs.Outcomes
import HornSearch.Proofs.Queries
import Mathlib.Data.List.Permutation

namespace HornSearch

variable {α β γ : Type} {kb : KnowledgeBase} {settings : Settings} {levels : Nat} {query : Item}
variable {goals first second : List Literal} {b c : Bindings} {n k : Int} {trail : Trail}

/-! ### Computations one after another -/

namespace Search

variable {s : Search α} {next : α → Search β}

theorem bind_of_proved {a : α} {trail' : Trail} (h : s trail = (.proved a, trail')) :
    (s >>= next) trail = next a trail' := by
  show Search.bind s next trail = next a trail'
  simp [Search.bind, h]

theorem bind_of_failed {trail' : Trail} (h : s trail = (.failed, trail')) :
    (s >>= next) trail = (.failed, trail') := by
  show Search.bind s next trail = _
  simp [Search.bind, h]

theorem bind_of_stopped {fault : Fault} {trail' : Trail}
    (h : s trail = (.stopped fault, trail')) : (s >>= next) trail = (.stopped fault, trail') := by
  show Search.bind s next trail = _
  simp [Search.bind, h]

theorem bind_pure_apply (s : Search α) (f : α → β) (trail : Trail) :
    (s >>= fun a => Pure.pure (f a)) trail = ((s trail).1.map f, (s trail).2) := by
  show Search.bind s (fun a => Search.pure (f a)) trail = _
  rcases e : s trail with ⟨_ | _ | _, _⟩ <;> simp [Search.bind, Search.pure, Outcome.map, e]

theorem bind_assoc (s : Search α) (next : α → Search β) (last : β → Search γ) :
    (s >>= next >>= last) = s >>= fun a => next a >>= last := by
  funext trail
  show Search.bind (Search.bind s next) last trail = Search.bind s (fun a => next a >>= last) trail
  rcases e : s trail with ⟨_ | _ | _, _⟩ <;> simp only [Search.bind, e]
  rfl

end Search

/-- Goals are proved in two portions. -/
theorem Resolver.solveGoals_append (kb : KnowledgeBase) (settings : Settings) (levels : Nat)
    (first second : List Item) (b : Bindings) :
    solveGoals kb settings levels (first ++ second) b = do
      let (c, nodes) ← solveGoals kb settings levels first b
      let (d, nodes') ← solveGoals kb settings levels second c
      return (d, nodes ++ nodes') := by
  induction first generalizing b with
  | nil => exact (Search.bind_pure _).symm
  | cons goal goals ih =>
    cases goal <;>
      simp only [List.cons_append, solveGoals, ih, Search.bind_assoc, Search.pure_bind]

/-! ### Where queries start -/

theorem StartsAt.eq_of_within {k : Int} (h : StartsAt goals b n k) (hn : 1 ≤ n)
    (hg : ∀ g ∈ goals, g.Within n) (hb : b.Within n) : k = n :=
  le_antisymm (h.least n le_rfl hn hg hb) h.le

/-- Goals below the serial at the beginning do not move the start of a query. -/
theorem StartsAt.append {k k' : Int} (h : StartsAt first b n k)
    (h' : StartsAt (first ++ second) b n k') (hn : 1 ≤ n) (hsecond : ∀ g ∈ second, g.Within n) :
    k' = k := by
  obtain ⟨hfirst, -⟩ := List.forall_mem_append.1 h'.goals_within
  refine le_antisymm (h'.least k h.le (hn.trans h.le) ?_ h.bindings_within)
    (h.least k' h'.le (hn.trans h'.le) hfirst h'.bindings_within)
  exact List.forall_mem_append.2
    ⟨h.goals_within, fun g hg => (hsecond g hg).mono h.le⟩

/-! ### What becomes of a query -/

/-- A query answers what becomes of its goals: by a tree with or without a proof, or not at all
if a fault stops the search. -/
inductive Answers (goals : List Literal) : Outcome (Bindings × List ProofNode) × Trail →
    Outcome ProofTree × Trail → Prop where
  | valid (proof : Bindings × List ProofNode) (trail : Trail) :
      Answers goals (.proved proof, trail) (.proved ⟨goals.map .literal, some proof⟩, trail)
  | invalid (trail : Trail) (events : List Event) :
      Answers goals (.failed, trail) (.proved ⟨goals.map .literal, none⟩, { trail with events })
  | stopped (fault : Fault) (trail : Trail) :
      Answers goals (.stopped fault, trail) (.stopped fault, trail)

/-- More goals are answered as some of them are, if the nodes of the others are known. -/
theorem Answers.extend {nodes : List ProofNode} {o : Outcome (Bindings × List ProofNode) × Trail}
    {part all : Outcome ProofTree × Trail} (h : Answers second o part)
    (hall : Answers goals (o.1.map fun r => (r.1, nodes ++ r.2), o.2) all) :
    all.1 = part.1.map (fun tree =>
        ⟨goals.map .literal, tree.proof.map fun r => (r.1, nodes ++ r.2)⟩) ∧
      all.2.source = part.2.source := by
  cases h with
  | valid proof trail =>
    cases hall
    exact ⟨rfl, rfl⟩
  | invalid trail events =>
    cases hall
    exact ⟨rfl, rfl⟩
  | stopped fault trail =>
    cases hall
    exact ⟨rfl, rfl⟩

/-- That legible goals are not proved is recorded at most. -/
theorem Resolver.unproved_eq (hg : ∀ g ∈ goals, g.meets .legible = true) (trail : Trail) :
    ∃ events, unproved (goals.map .literal) trail =
      (.proved ⟨goals.map .literal, none⟩, { trail with events }) := by
  have hlegible : (Event.unproved (goals.map .literal)).Legible := ⟨goals, rfl, hg⟩
  obtain ⟨events, hevents⟩ := Search.record_eq hlegible trail
  exact ⟨events, Search.bind_of_proved hevents⟩

/-- **A query answers its goals**, from where it starts. -/
theorem Resolver.prove_answers (hg : ∀ g ∈ goals, g.meets .legible = true)
    (hb : b.Meets .regular) (n : Int) :
    ∃ k, StartsAt goals b n k ∧ ∀ (kb : KnowledgeBase) (settings : Settings) (levels : Nat)
      (trail : Trail), trail.source = ⟨.int n⟩ →
      Answers goals (solveGoals kb settings levels (goals.map .literal) b
        { trail with source := ⟨.int k⟩ })
        (prove kb settings levels (.list (goals.map .literal)) b trail) := by
  have hregular : ∀ g ∈ goals, g.meets .regular = true :=
    fun g hg' => Literal.meets_mono Criterion.legible_implies_regular (hg g hg')
  have hq : goalsOf (.list (goals.map .literal)) = .ok (goals.map .literal) := rfl
  obtain ⟨k, hstart, hprove⟩ := Journaled.prove_eq hq hregular hb n
  refine ⟨k, hstart, fun kb settings levels trail htrail => ?_⟩
  have heq : prove kb settings levels (.list (goals.map .literal)) b trail =
      Search.orElse (do
          let proof ← solveGoals kb settings levels (goals.map .literal) b
          return ⟨goals.map .literal, some proof⟩)
        (unproved (goals.map .literal)) { trail with source := ⟨.int k⟩ } := by
    rw [← Journaled.erase_prove, ← Journaled.erase_proveFrom]
    exact congrArg Prod.fst (hprove kb settings levels trail htrail)
  rw [heq, Search.orElse]
  rcases e : solveGoals kb settings levels (goals.map .literal) b
      { trail with source := ⟨.int k⟩ } with ⟨proof | - | fault, trail'⟩
  · rw [Search.bind_of_proved e]
    exact .valid proof trail'
  · rw [Search.bind_of_failed e]
    obtain ⟨events, hevents⟩ := unproved_eq hg trail'
    simp only [hevents]
    exact .invalid trail' events
  · rw [Search.bind_of_stopped e]
    exact .stopped fault trail'

/-- **A query ends past all in play**: the bindings of a proof are within the next serial. -/
theorem Resolver.within_of_valid (hkb : kb.Meets .regular)
    (hq : goalsOf query = .ok (goals.map .literal)) (hg : ∀ g ∈ goals, g.meets .regular = true)
    (hb : b.Meets .regular) (htrail : trail.source = ⟨.int n⟩) {tree : ProofTree} {trail' : Trail}
    (h : prove kb settings levels query b trail = (.proved tree, trail')) {nodes : List ProofNode}
    (hproof : tree.proof = some (c, nodes)) :
    ∃ m, n ≤ m ∧ trail'.source = ⟨.int m⟩ ∧ c.Within m := by
  obtain ⟨k, m, hstart, hm, horderly, hproved⟩ :=
    yields_prove settings levels hkb hq hg hb htrail
  rw [h] at hm hproved
  have hproved := (hproved tree rfl).2 c nodes hproof
  exact ⟨m, hstart.le.trans horderly.le, hm,
    hproved.within hkb hstart.bindings_within hstart.goals_within⟩

/-! ### Two queries for one -/

/-- Looks for proofs of two lists of goals by two queries, the second one under the bindings of
the first, and puts their nodes together. -/
def Resolver.proveInTurn (kb : KnowledgeBase) (settings : Settings) (levels : Nat)
    (first second : List Literal) (b : Bindings) : Search ProofTree := do
  let tree ← prove kb settings levels (.list (first.map .literal)) b
  match tree.proof with
  | none => return ⟨(first ++ second).map .literal, none⟩
  | some (c, nodes) =>
    let tree ← prove kb settings levels (.list (second.map .literal)) c
    return ⟨(first ++ second).map .literal, tree.proof.map fun r => (r.1, nodes ++ r.2)⟩

theorem Resolver.proveInTurn_of_valid {goals : List Item} {nodes : List ProofNode}
    {trail' : Trail} (h : prove kb settings levels (.list (first.map .literal)) b trail =
      (.proved ⟨goals, some (c, nodes)⟩, trail')) :
    proveInTurn kb settings levels first second b trail =
      ((prove kb settings levels (.list (second.map .literal)) c trail').1.map fun tree =>
          ⟨(first ++ second).map .literal, tree.proof.map fun r => (r.1, nodes ++ r.2)⟩,
        (prove kb settings levels (.list (second.map .literal)) c trail').2) := by
  rw [proveInTurn, Search.bind_of_proved h]
  exact Search.bind_pure_apply _ _ _

/-- **Conjunctions split**: if the goals of the second list are below the next serial, then
asking for both lists at once and asking for one after the other come to the same, be it a proof
with the same bindings and nodes, no proof, or a fault; and the source of serials, which begins
at one at least, ends at the same serial. -/
theorem prove_append (settings : Settings) (levels : Nat) (hkb : kb.Meets .regular)
    (hfirst : ∀ g ∈ first, g.meets .legible = true)
    (hsecond : ∀ g ∈ second, g.meets .legible = true) (hb : b.Meets .regular) (hn : 1 ≤ n)
    (hbelow : ∀ g ∈ second, ∀ v ∈ g.occurrences, v.Below n) (htrail : trail.source = ⟨.int n⟩) :
    (Resolver.prove kb settings levels (.list ((first ++ second).map .literal)) b trail).1 =
        (Resolver.proveInTurn kb settings levels first second b trail).1 ∧
      (Resolver.prove kb settings levels (.list ((first ++ second).map .literal)) b
          trail).2.source =
        (Resolver.proveInTurn kb settings levels first second b trail).2.source := by
  have hregular : ∀ {gs : List Literal}, (∀ g ∈ gs, g.meets .legible = true) →
      ∀ g ∈ gs, g.meets .regular = true :=
    fun h g hg => Literal.meets_mono Criterion.legible_implies_regular (h g hg)
  have hwithin : ∀ g ∈ second, g.Within n := fun g hg => ⟨hregular hsecond g hg, hbelow g hg⟩
  have hboth : ∀ g ∈ first ++ second, g.meets .legible = true :=
    List.forall_mem_append.2 ⟨hfirst, hsecond⟩
  obtain ⟨k, hstart, hone⟩ := Resolver.prove_answers hfirst hb n
  obtain ⟨k', hstart', hall⟩ := Resolver.prove_answers hboth hb n
  obtain rfl := hstart.append hstart' hn hwithin
  replace hone := hone kb settings levels trail htrail
  replace hall := hall kb settings levels trail htrail
  rw [List.map_append, Resolver.solveGoals_append, ← List.map_append] at hall
  generalize hrun : Resolver.prove kb settings levels (.list (first.map .literal)) b trail = one
    at hone
  generalize Resolver.prove kb settings levels (.list ((first ++ second).map .literal)) b trail =
    all at hall ⊢
  -- by what becomes of the first goals; only a proof goes on to the second
  rcases e : Resolver.solveGoals kb settings levels (first.map .literal) b
      { trail with source := ⟨.int k'⟩ } with ⟨⟨c, nodes⟩ | - | fault, trail'⟩
  · rw [e] at hone
    rw [Search.bind_of_proved e] at hall
    cases hone
    obtain ⟨m, hnm, hm, hc⟩ := Resolver.within_of_valid hkb rfl (hregular hfirst) hb htrail hrun rfl
    obtain ⟨i, hstart₂, htwo⟩ := Resolver.prove_answers hsecond hc.meets m
    obtain rfl := hstart₂.eq_of_within (hn.trans hnm) (fun g hg => (hwithin g hg).mono hnm) hc
    replace htwo := htwo kb settings levels trail' hm
    rw [← hm] at htwo
    rw [Resolver.proveInTurn_of_valid hrun]
    change Answers (first ++ second) ((Resolver.solveGoals kb settings levels
      (second.map .literal) c >>= fun r => pure (r.1, nodes ++ r.2)) trail') all at hall
    rw [Search.bind_pure_apply] at hall
    exact htwo.extend hall
  · rw [e] at hone
    rw [Search.bind_of_failed e] at hall
    cases hone
    cases hall
    rw [Resolver.proveInTurn, Search.bind_of_proved hrun]
    exact ⟨rfl, rfl⟩
  · rw [e] at hone
    rw [Search.bind_of_stopped e] at hall
    cases hone
    cases hall
    rw [Resolver.proveInTurn, Search.bind_of_stopped hrun]
    exact ⟨rfl, rfl⟩

namespace Family

/-- Whose descendant has an ancestor, who is asked for by a variable with a serial. -/
def further : List Literal := [ancestor (.var ⟨.str "Z", .int 3⟩) (someone "Y")]

theorem further_below : ∀ g ∈ further, ∀ v ∈ g.occurrences, v.Below 5 := by
  refine List.forall_mem_singleton.2 (List.forall_mem_cons.2 ⟨⟨3, rfl, by decide⟩, ?_⟩)
  exact List.forall_mem_singleton.2 ⟨0, rfl, by decide⟩

end Family

open Family in
/-- Each of the goals takes five copies of rules, the second one from where the first has left
the source. -/
theorem append_family : ∃ tree trail,
    Resolver.prove clauses {} 9 (.list (([ancestor (someone "X") (someone "Y")] ++
      further).map .literal)) start { source := ⟨.int 5⟩ } = (.proved tree, trail) ∧
    tree.isValid = true ∧ trail.source.upcoming = .int 15 ∧
    (Resolver.proveInTurn clauses {} 9 [ancestor (someone "X") (someone "Y")] further start
      { source := ⟨.int 5⟩ }).1 = .proved tree ∧
    (Resolver.proveInTurn clauses {} 9 [ancestor (someone "X") (someone "Y")] further start
      { source := ⟨.int 5⟩ }).2.source.upcoming = .int 15 := by
  obtain ⟨tree, trail, hprove, hvalid, hsource⟩ : ∃ tree trail,
      Resolver.prove clauses {} 9 (.list (([ancestor (someone "X") (someone "Y")] ++
        further).map .literal)) start { source := ⟨.int 5⟩ } = (.proved tree, trail) ∧
      tree.isValid = true ∧ trail.source.upcoming = .int 15 :=
    ⟨_, _, by cbv, by cbv, by cbv⟩
  have hfirst : ∀ g ∈ [ancestor (someone "X") (someone "Y")], g.meets .legible = true := by decide
  have htrail : ({ source := ⟨.int 5⟩ } : Trail).source = ⟨.int 5⟩ := rfl
  have h := prove_append {} 9 clauses_meets hfirst (by decide) start_meets (by decide)
    further_below htrail
  rw [hprove] at h
  exact ⟨tree, trail, hprove, hvalid, hsource, h.1.symm, (congrArg _ h.2).symm.trans hsource⟩

end HornSearch
