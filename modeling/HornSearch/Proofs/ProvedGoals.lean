/-
HornSearch/Proofs/ProvedGoals.lean

What a successful search has done.  `Proved kb limit depth goals b n c nodes m` says that
goals were closed from left to right at a depth, starting from bindings `b` and the
serial `n` and ending with bindings `c`, nodes for the goals and the serial `m`.  It has
a rule for the empty list, one for a goal that a fact closes, and one for a goal that
a copy of a rule closes once the goals of its body are proved one level deeper.
Attempts that were given up do not occur in it, except that serials may be passed over.

* `provesOne_solve`, `provesAll_solveAll`: whatever the search proves is `Proved`, and along
  the way its journal is orderly;
* `Proved.within`: what is in play afterwards has serials below the next one.

The invariant that carries the search is `Bindings.Within n`, `Literal.Within n`: all that
is in play is regular and has serials below `n`, the next serial of the source.
-/
import HornSearch.Proofs.Derivation
import HornSearch.Proofs.Freshness
import HornSearch.Proofs.StoreCalls

namespace HornSearch

variable {n m k : Int} {b c d : Bindings} {l : Literal}

/-! ### Regular knowledge bases -/

/-- The clauses meet a criterion, and the facts are ground, which is checked as they
are added. -/
structure KnowledgeBase.Meets (p : Criterion) (kb : KnowledgeBase) : Prop where
  facts : ∀ f ∈ kb.facts, f.meets p = true ∧ f.isGround = true
  rules : ∀ r ∈ kb.rules, r.meets p = true

namespace Family

/-- A person, by name. -/
def person (name : String) : Term := .const (.str name)

/-- Someone or other. -/
def someone (name : String) : Term := .var (.named name)

/-- One person is a parent of another. -/
def parent (x y : Term) : Literal := ⟨.str "parent", [x, y]⟩

/-- One person is an ancestor of another. -/
def ancestor (x y : Term) : Literal := ⟨.str "ancestor", [x, y]⟩

/-- Three generations, and ancestors by recursion first: a knowledge base in which
searches go astray before they succeed. -/
def clauses : KnowledgeBase := .ofList [
  .fact (parent (person "tom") (person "bob")),
  .fact (parent (person "bob") (person "ann")),
  .rule ⟨ancestor (someone "X") (someone "Z"),
    [parent (someone "X") (someone "Y"), ancestor (someone "Y") (someone "Z")]⟩,
  .rule ⟨ancestor (someone "X") (someone "Y"), [parent (someone "X") (someone "Y")]⟩]

/-- Whose descendant has a parent. -/
def goals : List Literal :=
  [ancestor (someone "X") (someone "Y"), parent (someone "Z") (someone "Y")]

/-- The ancestor is known. -/
def start : Bindings := ⟨[(.ofVariable (.named "X"), .term (person "tom"))]⟩

theorem clauses_meets : clauses.Meets .regular where
  facts := by decide
  rules := by decide

theorem start_meets : start.Meets .regular :=
  ⟨List.forall_mem_singleton.2 ⟨_, _, rfl, rfl, rfl⟩, List.nodup_singleton _⟩

theorem start_acyclic : start.Acyclic := by
  refine Bindings.acyclic_of_rank (fun _ => 0) ?_
  rintro v w ⟨t, ht, hw⟩
  cases List.mem_singleton.1 ht
  cases hw

end Family

/-! ### Bounded serials -/

/-- The literal is regular, and the serials in it are below `n`. -/
structure Literal.Within (n : Int) (l : Literal) : Prop where
  regular : l.meets .regular = true
  below : ∀ v ∈ l.occurrences, v.Below n

/-- The environment binds regular variables to regular terms, and the serials in it are
below `n`. -/
structure Bindings.Within (n : Int) (b : Bindings) : Prop where
  meets : b.Meets .regular
  below : ∀ v t, b.Binds v t → v.Below n ∧ ∀ w ∈ t.occurrences, w.Below n

theorem Literal.Within.mono (h : l.Within n) (hnm : n ≤ m) : l.Within m :=
  ⟨h.regular, fun v hv => (h.below v hv).mono hnm⟩

theorem Bindings.Within.mono (h : b.Within n) (hnm : n ≤ m) : b.Within m := by
  refine ⟨h.meets, fun v t ht => ?_⟩
  obtain ⟨hv, hoccurs⟩ := h.below v t ht
  exact ⟨hv.mono hnm, fun w hw => (hoccurs w hw).mono hnm⟩

theorem Bindings.Within.below_of_mem (h : b.Within n) {i : Item} (hi : i ∈ b.keys ∨ i ∈ b.values)
    {v : Variable} (hv : v ∈ i.occurrences?.getD []) : v.Below n := by
  rcases hi with hi | hi
  · obtain ⟨e, he, rfl⟩ := List.mem_map.1 hi
    obtain ⟨w, t, rfl, -⟩ := h.meets.typed e he
    obtain rfl : v = w := List.mem_singleton.1 hv
    exact (h.below v t he).1
  · obtain ⟨e, he, rfl⟩ := List.mem_map.1 hi
    obtain ⟨w, t, rfl, -⟩ := h.meets.typed e he
    exact (h.below w t he).2 v hv

theorem Literal.within_of_isGround (hl : l.meets .regular = true) (hg : l.isGround = true) :
    l.Within n := by
  rw [Literal.isGround_iff] at hg
  exact ⟨hl, by simp [hg]⟩

/-! ### One step -/

/-- Two regular literals are unified, from one environment to another. -/
structure Joined (l l' : Literal) (b c : Bindings) : Prop where
  left : l.meets .regular = true
  right : l'.meets .regular = true
  env : b.Meets .regular
  eq : unifyLiterals l l' b = .ok (some c)

namespace Joined

variable {l' : Literal} {σ : Assignment}

theorem posed (h : Joined l l' b c) : Posed .regular [(l.asTerm, l'.asTerm)] b :=
  .single (fun _ h => h) h.left h.right h.env

theorem unified (h : Joined l l' b c) : Unified [(l.asTerm, l'.asTerm)] b (some c) :=
  unifyLiterals_unified h.left h.right h.env h.eq

theorem meets (h : Joined l l' b c) : c.Meets .regular := h.unified.meets rfl h.posed

theorem isPrefix (h : Joined l l' b c) : b.entries <+: c.entries := h.unified.isPrefix rfl

theorem acyclic (h : Joined l l' b c) (hac : b.Acyclic) : c.Acyclic :=
  h.unified.acyclic rfl h.posed hac

/-- Whatever solves the new environment solves the old one and makes the literals
equal. -/
theorem sound (h : Joined l l' b c) (hσ : σ.Meets .regular) (hs : Solves σ c) :
    Solves σ b ∧ (l.instantiate σ == l'.instantiate σ) = true := by
  obtain ⟨hb, he⟩ := h.unified.sound rfl h.posed hσ hs
  refine ⟨hb, Literal.beq_iff_alike.2 ?_⟩
  rw [Literal.asTerm_instantiate, Literal.asTerm_instantiate]
  exact (equalizes_cons.1 he).1

/-- Unification brings no variables into play: what holds of those in the literals and in
the bindings holds of those in the new bindings. -/
theorem holdsOf {P : Variable → Prop} (h : Joined l l' b c) (hl : ∀ v ∈ l.occurrences, P v)
    (hl' : ∀ v ∈ l'.occurrences, P v)
    (hb : ∀ v t, b.Binds v t → P v ∧ ∀ w ∈ t.occurrences, P w) :
    ∀ v t, c.Binds v t → P v ∧ ∀ w ∈ t.occurrences, P w := by
  have hbinds := h.unified.binds_of_closed rfl (T := fun t => ∀ v ∈ t.occurrences, P v)
    (fun f ts h t ht v hv => h v (Term.mem_occurrences_app.2 ⟨t, ht, hv⟩))
    (by simpa using ⟨hl, hl'⟩)
    (fun v t ht => ⟨by simpa [Term.occurrences] using (hb v t ht).1, (hb v t ht).2⟩)
  exact fun v t ht => ⟨(hbinds v t ht).1 v (by simp [Term.occurrences]), (hbinds v t ht).2⟩

theorem within (h : Joined l l' b c) (hl : l.Within n) (hl' : l'.Within n) (hb : b.Within n) :
    c.Within n :=
  ⟨h.meets, h.holdsOf hl.below hl'.below hb.below⟩

end Joined

/-- A regular rule is copied by a source of serials that passes from one number to
another. -/
structure Copied (r copy : Rule) (n m : Int) : Prop where
  regular : r.meets .regular = true
  eq : r.standardizeApart ⟨.int n⟩ = .ok (copy, ⟨.int m⟩)

namespace Copied

variable {r copy : Rule}

theorem exists_freshens (h : Copied r copy n m) :
    ∃ ρ, copy = r.rename ρ ∧ n < m ∧ Freshens ρ r n m := by
  obtain ⟨ρ, k, hk, hlt, hρ⟩ := Rule.standardizeApart_eq h.regular n
  have hpair := Except.ok.inj (hk.symm.trans h.eq)
  obtain ⟨rfl, hsource⟩ := Prod.ext_iff.1 hpair
  obtain rfl : k = m := Value.int.inj (SerialSource.mk.inj hsource)
  exact ⟨ρ, rfl, hlt, hρ⟩

theorem lt (h : Copied r copy n m) : n < m := by
  obtain ⟨-, -, hlt, -⟩ := h.exists_freshens
  exact hlt

theorem fresh (h : Copied r copy n m) : ∀ v ∈ copy.occurrences, v.AtLeast n ∧ v.Below m := by
  obtain ⟨ρ, rfl, -, hρ⟩ := h.exists_freshens
  exact fun v hv => hρ.fresh hv

theorem copy_regular (h : Copied r copy n m) : copy.meets .regular = true := by
  obtain ⟨ρ, rfl, -, hρ⟩ := h.exists_freshens
  exact hρ.regular h.regular

theorem head_within (h : Copied r copy n m) : copy.head.Within m :=
  ⟨(Rule.meets_iff.1 h.copy_regular).1,
    fun v hv => (h.fresh v (Rule.mem_occurrences.2 (.inl hv))).2⟩

theorem body_within (h : Copied r copy n m) : ∀ l ∈ copy.body, l.Within m :=
  fun l hl => ⟨(Rule.meets_iff.1 h.copy_regular).2 l hl,
    fun v hv => (h.fresh v (Rule.mem_occurrences.2 (.inr ⟨l, hl, hv⟩))).2⟩

end Copied

/-! ### Proofs -/

/-- The goals are closed from left to right at a depth, from some bindings and a serial
to others, with a node for each. -/
inductive Proved (kb : KnowledgeBase) (limit : Option Nat) :
    Nat → List Literal → Bindings → Int → Bindings → List ProofNode → Int → Prop where
  | nil {depth : Nat} {b : Bindings} {n m : Int} :
      n ≤ m → Proved kb limit depth [] b n b [] m
  | fact {depth : Nat} {goal fact : Literal} {goals : List Literal} {b c d : Bindings}
      {nodes : List ProofNode} {n m : Int} :
      (∀ N, limit = some N → depth ≤ N) → fact ∈ kb.facts → Joined goal fact b c →
      Proved kb limit depth goals c n d nodes m →
      Proved kb limit depth (goal :: goals) b n d (.byFact goal fact depth :: nodes) m
  | rule {depth : Nat} {goal : Literal} {goals : List Literal} {rule copy : Rule}
      {b c d e : Bindings} {children nodes : List ProofNode} {n i j k m : Int} :
      (∀ N, limit = some N → depth ≤ N) → rule ∈ kb.rules → n ≤ i → Copied rule copy i j →
      Joined goal copy.head b c →
      Proved kb limit (depth + 1) copy.body c j d children k →
      Proved kb limit depth goals d k e nodes m →
      Proved kb limit depth (goal :: goals) b n e (.byRule goal copy children depth :: nodes) m

namespace Proved

variable {kb : KnowledgeBase} {limit : Option Nat} {depth : Nat} {goal : Literal}
variable {goals : List Literal} {node : ProofNode} {nodes : List ProofNode}

theorem le (h : Proved kb limit depth goals b n c nodes m) : n ≤ m := by
  induction h with
  | nil h => exact h
  | fact _ _ _ _ ih => exact ih
  | rule _ _ hle hcopy _ _ _ ihbody ih =>
    have hlt := hcopy.lt
    omega

/-- Serials may be passed over before the proof. -/
theorem mono (h : Proved kb limit depth goals b n c nodes m) (hkn : k ≤ n) :
    Proved kb limit depth goals b k c nodes m := by
  induction h with
  | nil h => exact .nil (hkn.trans h)
  | fact hlimit hfact hu _ ih => exact .fact hlimit hfact hu (ih hkn)
  | rule hlimit hrule hle hcopy hu hbody hrest =>
    exact .rule hlimit hrule (hkn.trans hle) hcopy hu hbody hrest

/-- The proof of one goal and that of the goals after it. -/
theorem cons (h : Proved kb limit depth [goal] b n c [node] k)
    (h' : Proved kb limit depth goals c k d nodes m) :
    Proved kb limit depth (goal :: goals) b n d (node :: nodes) m := by
  cases h with
  | fact hlimit hfact hu hnil =>
    cases hnil with
    | nil hnk => exact .fact hlimit hfact hu (h'.mono hnk)
  | rule hlimit hrule hle hcopy hu hbody hnil =>
    cases hnil with
    | nil hjk => exact .rule hlimit hrule hle hcopy hu hbody (h'.mono hjk)

/-- What is in play after a proof has serials below the next one. -/
theorem within (hkb : kb.Meets .regular) (h : Proved kb limit depth goals b n c nodes m)
    (hb : b.Within n) (hg : ∀ g ∈ goals, g.Within n) : c.Within m := by
  induction h with
  | nil h => exact hb.mono h
  | @fact depth goal fact goals b c d nodes n m _ hfact hu _ ih =>
    obtain ⟨hgoal, hg⟩ := List.forall_mem_cons.1 hg
    have hf : fact.Within n := Literal.within_of_isGround hu.right (hkb.facts fact hfact).2
    exact ih (hu.within hgoal hf hb) hg
  | @rule depth goal goals rule copy b c d e children nodes n i j k m _ _ hle hcopy hu hbody _
      ihbody ih =>
    obtain ⟨hgoal, hg⟩ := List.forall_mem_cons.1 hg
    have hnj : n ≤ j := hle.trans hcopy.lt.le
    -- the copy brings its serials into play, all of them below `j`
    have hc := hu.within (hgoal.mono hnj) hcopy.head_within (hb.mono hnj)
    have hnk : n ≤ k := hnj.trans hbody.le
    exact ih (ihbody hc hcopy.body_within) fun g hg' => (hg g hg').mono hnk

theorem isPrefix (h : Proved kb limit depth goals b n c nodes m) : b.entries <+: c.entries := by
  induction h with
  | nil _ => exact List.prefix_rfl
  | fact _ _ hu _ ih => exact hu.isPrefix.trans ih
  | rule _ _ _ _ hu _ _ ihbody ih => exact (hu.isPrefix.trans ihbody).trans ih

theorem meets (h : Proved kb limit depth goals b n c nodes m) (hb : b.Meets .regular) :
    c.Meets .regular := by
  induction h with
  | nil _ => exact hb
  | fact _ _ hu _ ih => exact ih hu.meets
  | rule _ _ _ _ hu _ _ ihbody ih => exact ih (ihbody hu.meets)

theorem acyclic (h : Proved kb limit depth goals b n c nodes m) (hac : b.Acyclic) :
    c.Acyclic := by
  induction h with
  | nil _ => exact hac
  | fact _ _ hu _ ih => exact ih (hu.acyclic hac)
  | rule _ _ _ _ hu _ _ ihbody ih => exact ih (ihbody (hu.acyclic hac))

end Proved

/-! ### The search proves what it says -/

/-- A fact that is found is one of the facts, and unifies. -/
theorem KnowledgeBase.firstMatch_eq_some {goal fact : Literal} {facts : List Literal}
    (h : KnowledgeBase.firstMatch goal b facts = .ok (some (fact, c))) :
    fact ∈ facts ∧ unifyLiterals goal fact b = .ok (some c) := by
  induction facts with
  | nil => cases h
  | cons first facts ih =>
    rw [KnowledgeBase.firstMatch] at h
    rcases e : unifyLiterals goal first b with _ | - | c'
    · simp [e] at h
    · rw [e] at h
      exact (ih h).imp_left (List.mem_cons_of_mem _)
    · rw [e] at h
      obtain ⟨rfl, rfl⟩ := Prod.ext_iff.1 (Option.some.inj (Except.ok.inj h))
      exact ⟨List.mem_cons_self, e⟩

/-- What comes last in a computation that succeeds succeeds. -/
theorem Search.exists_of_bind {α β : Type} {s : Search α} {next : α → Search β} {trail : Trail}
    {a : β} (h : ((s >>= next) trail).1 = .proved a) :
    ∃ a' trail', (next a' trail').1 = .proved a := by
  change (Search.bind s next trail).1 = .proved a at h
  rcases e : s trail with ⟨a' | - | fault, trail'⟩
  · simp only [Search.bind, e] at h
    exact ⟨a', trail', h⟩
  · simp [Search.bind, e] at h
  · simp [Search.bind, e] at h

section Solver

open Journaled

variable {kb : KnowledgeBase} {settings : Settings} {limit : Option Nat} {depth levels : Nat}
variable {pending : List Item} {goal : Literal} {goals : List Literal}

/-- A goal that is not stopped is no deeper than the limit. -/
theorem yields_guardDepth : Yields (lift (Resolver.guardDepth settings goal depth b)) n
    fun i _ => i = n ∧ ∀ N, settings.maxDepth = some N → depth ≤ N := by
  unfold Resolver.guardDepth
  cases hmax : settings.maxDepth with
  | none => exact yields_pure ⟨rfl, by simp⟩
  | some limit =>
    by_cases hlt : limit < depth
    · simp only [if_pos hlt]
      refine yields_lift ?_ fun trail a ha => ?_
      · exact (Search.keepsSource_ofChecked _).bind fun _ _ => rfl
      · obtain ⟨g, trail', hstop⟩ := Search.exists_of_bind ha
        cases hstop
    · simp only [if_neg hlt]
      refine yields_pure ⟨rfl, fun N hN => ?_⟩
      obtain rfl := Option.some.inj hN
      exact Nat.le_of_not_lt hlt

/-- What the solver of single goals proves at a depth is `Proved`, where all that is in
play is within the next serial. -/
def ProvesOne (kb : KnowledgeBase) (limit : Option Nat) (depth : Nat)
    (solver : Literal → List Item → Bindings → Journaled (Bindings × ProofNode)) : Prop :=
  ∀ (goal : Literal) (pending : List Item) (b : Bindings) (n : Int), goal.Within n →
    (∀ v ∈ Item.variablesHeld pending, v.Below n) → b.Within n →
    Yields (solver goal pending b) n fun m r => Proved kb limit depth [goal] b n r.1 [r.2] m

/-- What the solver of conjunctions proves at a depth, besides pending goals, is
`Proved`. -/
def ProvesAll (kb : KnowledgeBase) (limit : Option Nat) (depth : Nat) (pending : List Item)
    (solver : List Literal → Bindings → Journaled (Bindings × List ProofNode)) : Prop :=
  ∀ (goals : List Literal) (b : Bindings) (n : Int), (∀ g ∈ goals, g.Within n) →
    (∀ v ∈ Item.variablesHeld pending, v.Below n) → b.Within n →
    Yields (solver goals b) n fun m r => Proved kb limit depth goals b n r.1 r.2 m

theorem below_pending (hg : ∀ g ∈ goals, g.Within n)
    (hp : ∀ v ∈ Item.variablesHeld pending, v.Below n) :
    ∀ v ∈ Item.variablesHeld (goals.map .literal ++ pending), v.Below n := by
  intro v hv
  rw [Item.variablesHeld, List.flatMap_append, List.mem_append] at hv
  rcases hv with hv | hv
  · obtain ⟨i, hi, hv⟩ := List.mem_flatMap.1 hv
    obtain ⟨g, hg', rfl⟩ := List.mem_map.1 hi
    exact (hg g hg').below v hv
  · exact hp v hv

theorem provesAll_solveAll
    {solver : Literal → List Item → Bindings → Journaled (Bindings × ProofNode)}
    (hkb : kb.Meets .regular) (h : ProvesOne kb limit depth solver) (pending : List Item) :
    ProvesAll kb limit depth pending (Journaled.solveAll solver pending) := by
  intro goals
  induction goals with
  | nil => exact fun b n _ _ _ => yields_pure (.nil le_rfl)
  | cons goal goals ih =>
    intro b n hg hp hb
    obtain ⟨hgoal, hg⟩ := List.forall_mem_cons.1 hg
    refine (h goal _ b n hgoal (below_pending hg hp) hb).bind ?_
    rintro k ⟨c, node⟩ hnk hnode
    have hc : c.Within k := hnode.within hkb hb (by simpa using hgoal)
    have hg' : ∀ g ∈ goals, g.Within k := fun g hmem => (hg g hmem).mono hnk
    -- the source has only moved on, so the goals left are within its next serial too
    refine (ih c k hg' (fun v hv => (hp v hv).mono hnk) hc).bind ?_
    rintro m ⟨d, nodes⟩ - hnodes
    exact yields_pure (hnode.cons hnodes)

/-- What is in play as a rule is copied has serials below the next one. -/
theorem below_inPlay (hgoal : goal.Within n)
    (hp : ∀ v ∈ Item.variablesHeld pending, v.Below n) (hb : b.Within n) (copy : Rule) :
    ∀ v ∈ (Step.copied goal pending b copy).inPlay, v.Below n := by
  intro v hv
  simp only [Step.inPlay, List.mem_append] at hv
  rcases hv with ((hv | hv) | hv) | hv
  · exact hgoal.below v hv
  · exact hp v hv
  · obtain ⟨i, hi, hv⟩ := Item.mem_variablesHeld.1 hv
    exact hb.below_of_mem (.inl hi) hv
  · obtain ⟨i, hi, hv⟩ := Item.mem_variablesHeld.1 hv
    exact hb.below_of_mem (.inr hi) hv

theorem yields_solveByRule (hkb : kb.Meets .regular)
    {solveBody : List Literal → Bindings → Journaled (Bindings × List ProofNode)}
    (hbody : ProvesAll kb limit (depth + 1) pending solveBody)
    (hlimit : ∀ N, limit = some N → depth ≤ N) (hgoal : goal.Within n)
    (hp : ∀ v ∈ Item.variablesHeld pending, v.Below n) (hb : b.Within n) {rule : Rule}
    (hrule : rule ∈ kb.rules) :
    Yields (solveByRule settings solveBody goal depth pending b rule) n
      fun m r => Proved kb limit depth [goal] b n r.1 [r.2] m := by
  have hr := hkb.rules rule hrule
  refine (yields_copy hr (below_inPlay hgoal hp hb)).bind fun j copy hnj heq => ?_
  have hcopy : Copied rule copy n j := ⟨hr, heq⟩
  have hunify : Yields (lift (Search.ofChecked (unifyLiterals goal copy.head b))) j
      fun i u => i = j ∧ unifyLiterals goal copy.head b = .ok u :=
    yields_ofChecked fun u hu => ⟨rfl, hu⟩
  refine hunify.bind ?_
  rintro j unified - ⟨rfl, hu⟩
  refine yields_recordIf ?_
  cases unified with
  | none => exact yields_fail
  | some c =>
    have hjoined : Joined goal copy.head b c :=
      ⟨hgoal.regular, hcopy.head_within.regular, hb.meets, hu⟩
    have hc := hjoined.within (hgoal.mono hnj) hcopy.head_within (hb.mono hnj)
    refine (hbody copy.body c j hcopy.body_within (fun v hv => (hp v hv).mono hnj) hc).bind ?_
    rintro m ⟨d, children⟩ - hchildren
    exact yields_pure (.rule hlimit hrule le_rfl hcopy hjoined hchildren (.nil le_rfl))

theorem yields_solveByRules (hkb : kb.Meets .regular)
    {solveBody : List Literal → Bindings → Journaled (Bindings × List ProofNode)}
    (hbody : ProvesAll kb limit (depth + 1) pending solveBody)
    (hlimit : ∀ N, limit = some N → depth ≤ N) (hgoal : goal.Within n)
    (hp : ∀ v ∈ Item.variablesHeld pending, v.Below n) (hb : b.Within n) {rules : List Rule}
    (hrules : ∀ r ∈ rules, r ∈ kb.rules) :
    Yields (solveByRules settings solveBody goal depth pending b rules) n
      fun m r => Proved kb limit depth [goal] b n r.1 [r.2] m := by
  induction rules generalizing n with
  | nil =>
    refine (yields_record _).bind fun _ _ _ _ => ?_
    exact yields_fail
  | cons rule rules ih =>
    obtain ⟨hrule, hrules⟩ := List.forall_mem_cons.1 hrules
    rw [Journaled.solveByRules]
    split
    -- the bindings of a rule that fails are dropped, the serials that it drew are not
    · refine (yields_solveByRule hkb hbody hlimit hgoal hp hb hrule).orElse fun k hnk => ?_
      have hrest := ih (hgoal.mono hnk) (fun v hv => (hp v hv).mono hnk) (hb.mono hnk) hrules
      exact hrest.mono fun m r _ h => h.mono hnk
    · exact ih hgoal hp hb hrules

theorem provesOne_solve (hkb : kb.Meets .regular) (levels depth : Nat) :
    ProvesOne kb settings.maxDepth depth (Journaled.solve kb settings levels depth) := by
  -- on the nesting that is granted; goals of a body have one level less, one deeper
  induction levels generalizing depth with
  | zero =>
    intro goal pending b n _ _ _
    refine (yields_visited goal depth b).bind fun _ _ _ _ => ?_
    refine yields_guardDepth.bind fun _ _ _ _ => ?_
    exact yields_stop .endless
  | succ levels ih =>
    intro goal pending b n hgoal hp hb
    refine (yields_visited goal depth b).bind ?_
    rintro n - - rfl
    refine yields_guardDepth.bind ?_
    rintro n - - ⟨rfl, hlimit⟩
    refine (yields_record _).bind ?_
    rintro n - - rfl
    have hfacts : Yields (lift (Search.ofChecked (KnowledgeBase.firstMatch goal b kb.facts))) n
        fun i found => i = n ∧ KnowledgeBase.firstMatch goal b kb.facts = .ok found :=
      yields_ofChecked fun found h => ⟨rfl, h⟩
    refine hfacts.bind ?_
    rintro n found - ⟨rfl, hfound⟩
    cases found with
    | none =>
      refine yields_solveByRules hkb ?_ hlimit hgoal hp hb fun r hr => hr
      exact provesAll_solveAll hkb (ih (depth + 1)) pending
    | some match? =>
      obtain ⟨fact, c⟩ := match?
      obtain ⟨hfact, hu⟩ := KnowledgeBase.firstMatch_eq_some hfound
      have hjoined : Joined goal fact b c :=
        ⟨hgoal.regular, (hkb.facts fact hfact).1, hb.meets, hu⟩
      refine (yields_record _).bind ?_
      rintro n - - rfl
      exact yields_pure (.fact hlimit hfact hjoined (.nil le_rfl))

end Solver

end HornSearch
