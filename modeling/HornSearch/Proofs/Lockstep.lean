/-
HornSearch/Proofs/Lockstep.lean

Two searches in lockstep.  What both have in play is paired, literal by literal, and a
relation `E ps b₁ b₂` says in which sense the paired literals `ps` correspond under the
bindings of the moment.  `Simulation` lists what such a relation has to allow: a fact pairs
with itself, fresh copies of rules in the same place pair with each other, and unifying
paired literals succeeds on both sides or on neither, and keeps the relation.

Then the two searches come to the same ending, with trees of the same shape
(`Course.agree`).  The pairs only grow along the way, so that in the end one relation holds
of all that is in the trees and of the bindings.  Queries that are related end together, with
outcomes of the same kind (`ends_together`), whatever their sources of serials stand at.  If
the limit stops them, then at goals that correspond; the faults may still differ, since one of
these goals can have a number in it that is too long to be written.

A copy is fresh for what is in play, and has to be fresh for all pairs, those of finished
goals among them.  It is, since the variables of a goal that is proved are in the bindings
(`Covers.join`).
-/
import HornSearch.Proofs.Equivariance
import HornSearch.Proofs.Levels
import HornSearch.Proofs.SearchCourses
import Mathlib.Data.List.Permutation

namespace HornSearch

/-- The literals of two searches that correspond. -/
abbrev Pairing := List (Literal × Literal)

/-- A list and its image pair each element with its own image. -/
theorem eq_of_mem_zip_map {α β : Type} {f : α → β} {xs : List α} {x : α} {y : β}
    (h : (x, y) ∈ xs.zip (xs.map f)) : x ∈ xs ∧ y = f x := by
  obtain ⟨i, hi, hget⟩ := List.mem_iff_getElem.1 h
  rw [List.getElem_zip, List.getElem_map] at hget
  obtain ⟨rfl, rfl⟩ := Prod.mk.inj hget
  exact ⟨List.getElem_mem _, rfl⟩

theorem eq_of_mem_zip_self {α : Type} {xs : List α} {x y : α} (h : (x, y) ∈ xs.zip xs) :
    x ∈ xs ∧ y = x :=
  eq_of_mem_zip_map (f := id) (by rwa [List.map_id])

/-- A list that pairs each element of another with its image is the image of that. -/
theorem eq_map_of_zip {α β : Type} {f : α → β} {xs : List α} {ys : List β}
    (hlength : xs.length = ys.length) (h : ∀ x y, (x, y) ∈ xs.zip ys → y = f x) :
    ys = xs.map f := by
  have hpairs : List.Forall₂ (fun y x => y = f x) ys xs :=
    (List.forall₂_iff_zip.2 ⟨hlength, fun {x y} hxy => h x y hxy⟩).flip
  rw [← List.forall₂_eq_eq_eq, List.forall₂_map_right_iff]
  exact hpairs

/-! ### The literals of a rule -/

namespace Rule

variable {r s : Rule}

/-- The head and the body of a rule. -/
def literals (r : Rule) : List Literal := r.head :: r.body

/-- The literals of two rules, place by place. -/
def pairs (r s : Rule) : Pairing := r.literals.zip s.literals

theorem mem_occurrences_iff {v : Variable} :
    v ∈ r.occurrences ↔ ∃ l ∈ r.literals, v ∈ l.occurrences := by
  rw [mem_occurrences, literals, List.exists_mem_cons_iff]

theorem meets_literals {p : Criterion} (h : r.meets p = true) :
    ∀ l ∈ r.literals, l.meets p = true :=
  List.forall_mem_cons.2 (meets_iff.1 h)

theorem IsVariant.predicate (h : s.IsVariant r) : s.head.predicate = r.head.predicate := by
  obtain ⟨ρ, rfl, -⟩ := h
  rfl

theorem IsVariant.length (h : s.IsVariant r) : s.literals.length = r.literals.length := by
  obtain ⟨ρ, rfl, -⟩ := h
  simp [literals, rename]

/-- Literals in the same place of two rules of the same length are a pair. -/
theorem forall₂_pairs (h : r.literals.length = s.literals.length) :
    List.Forall₂ (fun l m => (l, m) ∈ r.pairs s) r.literals s.literals :=
  List.forall₂_iff_zip.2 ⟨h, fun {_ _} h => h⟩

end Rule

/-! ### Trees of the same shape -/

/-- The proofs have the same shape: the same facts, copies of rules that stand in the same
place of two knowledge bases, and literals that are related throughout. -/
inductive SameShape (kb₁ kb₂ : KnowledgeBase) (R : Literal → Literal → Prop) :
    List ProofNode → List ProofNode → Prop where
  | nil : SameShape kb₁ kb₂ R [] []
  | fact {goal₁ goal₂ fact : Literal} {depth : Nat} {nodes₁ nodes₂ : List ProofNode} :
      R goal₁ goal₂ → R fact fact → SameShape kb₁ kb₂ R nodes₁ nodes₂ →
      SameShape kb₁ kb₂ R (.byFact goal₁ fact depth :: nodes₁) (.byFact goal₂ fact depth :: nodes₂)
  | rule {goal₁ goal₂ : Literal} {rule₁ rule₂ copy₁ copy₂ : Rule} {depth : Nat}
      {children₁ children₂ nodes₁ nodes₂ : List ProofNode} :
      R goal₁ goal₂ → (rule₁, rule₂) ∈ kb₁.rules.zip kb₂.rules →
      copy₁.IsVariant rule₁ → copy₂.IsVariant rule₂ →
      List.Forall₂ R copy₁.literals copy₂.literals →
      SameShape kb₁ kb₂ R children₁ children₂ → SameShape kb₁ kb₂ R nodes₁ nodes₂ →
      SameShape kb₁ kb₂ R (.byRule goal₁ copy₁ children₁ depth :: nodes₁)
        (.byRule goal₂ copy₂ children₂ depth :: nodes₂)

namespace SameShape

variable {kb₁ kb₂ : KnowledgeBase} {R S : Literal → Literal → Prop}
variable {nodes₁ nodes₂ rest₁ rest₂ : List ProofNode}

theorem mono (h : SameShape kb₁ kb₂ R nodes₁ nodes₂) (hRS : ∀ l m, R l m → S l m) :
    SameShape kb₁ kb₂ S nodes₁ nodes₂ := by
  induction h with
  | nil => exact .nil
  | fact hgoal hfact _ ih => exact .fact (hRS _ _ hgoal) (hRS _ _ hfact) ih
  | rule hgoal hrules hv₁ hv₂ hcopy _ _ ihchildren ih =>
    exact .rule (hRS _ _ hgoal) hrules hv₁ hv₂ (hcopy.imp hRS) ihchildren ih

theorem append (h : SameShape kb₁ kb₂ R nodes₁ nodes₂) (h' : SameShape kb₁ kb₂ R rest₁ rest₂) :
    SameShape kb₁ kb₂ R (nodes₁ ++ rest₁) (nodes₂ ++ rest₂) := by
  induction h with
  | nil => exact h'
  | fact hgoal hfact _ ih => exact .fact hgoal hfact ih
  | rule hgoal hrules hv₁ hv₂ hcopy hchildren _ _ ih =>
    exact .rule hgoal hrules hv₁ hv₂ hcopy hchildren ih

end SameShape

/-! ### What covers the variables of a literal -/

/-- Each variable of the literals `qs` is in one of the literals `ls` or in the
environment. -/
def Covers (ls : List Literal) (b : Bindings) (qs : List Literal) : Prop :=
  ∀ q ∈ qs, ∀ v ∈ q.occurrences, InUse ls b v

namespace Covers

variable {ls qs : List Literal} {goal m : Literal} {b c : Bindings}

theorem self (ls : List Literal) (b : Bindings) : Covers ls b ls :=
  fun l hl _ hv => .inl ⟨l, hl, hv⟩

/-- What is fresh for the literals in play is fresh for all that they cover. -/
theorem freshCopy (h : Covers ls b qs) {rule copy : Rule} (hcopy : FreshCopy rule copy ls b) :
    FreshCopy rule copy qs b where
  isVariant := hcopy.isVariant
  regular := hcopy.regular
  literals v hv q hq hvq := by
    rcases h q hq v hvq with ⟨l, hl, hvl⟩ | hvb
    · exact hcopy.literals v hv l hl hvl
    · exact hcopy.bindings v hv hvb
  bindings := hcopy.bindings

/-- Once a goal is unified with a literal that shares no variable with it, the goal is
covered by the bindings. -/
theorem join (h : Covers (goal :: ls) b qs) (new : List Literal)
    (hgoal : goal.meets .regular = true) (hm : m.meets .regular = true) (hb : b.Meets .regular)
    (hunify : unifyLiterals goal m b = .ok (some c))
    (happart : ∀ v ∈ goal.occurrences, v ∉ m.occurrences) :
    Covers (new ++ ls) c (m :: new ++ qs) := by
  have hprefix : b.entries <+: c.entries :=
    (unifyLiterals_unified hgoal hm hb hunify).isPrefix rfl
  obtain ⟨hmentioned, hmentioned'⟩ := unifyLiterals_mentions hgoal hm hb hunify happart
  intro q hq v hv
  rcases List.mem_append.1 hq with hq | hq
  · rcases List.mem_cons.1 hq with rfl | hq
    · exact .inr (hmentioned' v hv)
    · exact .inl ⟨q, List.mem_append_left _ hq, hv⟩
  · rcases h q hq v hv with ⟨l, hl, hvl⟩ | hvb
    · rcases List.mem_cons.1 hl with rfl | hl
      · exact .inr (hmentioned v hvl)
      · exact .inl ⟨l, List.mem_append_right _ hl, hvl⟩
    · exact .inr (hvb.mono hprefix)

end Covers

/-! ### Simulations -/

/-- What a relation has to allow in order to be kept by two searches. -/
structure Simulation (kb₁ kb₂ : KnowledgeBase) (E : Pairing → Bindings → Bindings → Prop) :
    Prop where
  /-- The knowledge bases have the same facts, and they are ground. -/
  facts : kb₁.facts = kb₂.facts
  ground : ∀ f ∈ kb₁.facts, f.occurrences = []
  /-- Their rules agree in number, in predicates, and in the length of bodies. -/
  rules : List.Forall₂ (fun r₁ r₂ => r₁.head.predicate = r₂.head.predicate ∧
    r₁.literals.length = r₂.literals.length) kb₁.rules kb₂.rules
  /-- Bindings that are related are regular, and so are pairs, which share a predicate. -/
  bindings : ∀ {ps b₁ b₂}, E ps b₁ b₂ → b₁.Meets .regular ∧ b₂.Meets .regular
  pair : ∀ {ps b₁ b₂ l₁ l₂}, E ps b₁ b₂ → (l₁, l₂) ∈ ps →
    l₁.meets .regular = true ∧ l₂.meets .regular = true ∧ l₁.predicate = l₂.predicate
  /-- A fact pairs with itself. -/
  fact : ∀ {ps b₁ b₂ f}, E ps b₁ b₂ → f ∈ kb₁.facts → E ((f, f) :: ps) b₁ b₂
  /-- Fresh copies of rules in the same place pair with each other. -/
  copy : ∀ {ps b₁ b₂ r₁ r₂ copy₁ copy₂}, E ps b₁ b₂ → (r₁, r₂) ∈ kb₁.rules.zip kb₂.rules →
    FreshCopy r₁ copy₁ (ps.map Prod.fst) b₁ → FreshCopy r₂ copy₂ (ps.map Prod.snd) b₂ →
    E (copy₁.pairs copy₂ ++ ps) b₁ b₂
  /-- Unifying pairs succeeds on both sides or on neither. -/
  unify : ∀ {ps b₁ b₂ l₁ l₂ m₁ m₂ r₁ r₂}, E ps b₁ b₂ → (l₁, l₂) ∈ ps → (m₁, m₂) ∈ ps →
    unifyLiterals l₁ m₁ b₁ = .ok r₁ → unifyLiterals l₂ m₂ b₂ = .ok r₂ → Option.Rel (E ps) r₁ r₂

/-- Two searches are in step: the literals in play are pairs, the pairs are related, and
what is in play covers them. -/
structure InStep (E : Pairing → Bindings → Bindings → Prop) (ls₁ ls₂ : List Literal)
    (ps : Pairing) (b₁ b₂ : Bindings) : Prop where
  related : E ps b₁ b₂
  literals : List.Forall₂ (fun l₁ l₂ => (l₁, l₂) ∈ ps) ls₁ ls₂
  left : Covers ls₁ b₁ (ps.map Prod.fst)
  right : Covers ls₂ b₂ (ps.map Prod.snd)

section Steps

variable {kb₁ kb₂ : KnowledgeBase} {E : Pairing → Bindings → Bindings → Prop}
variable {goal₁ goal₂ : Literal} {ls₁ ls₂ : List Literal} {ps : Pairing}
variable {b₁ b₂ c₁ c₂ : Bindings}

/-- Copies of rules in the same place are equally long. -/
theorem Simulation.length_eq (S : Simulation kb₁ kb₂ E) {rule₁ rule₂ copy₁ copy₂ : Rule}
    (hrules : (rule₁, rule₂) ∈ kb₁.rules.zip kb₂.rules) (hv₁ : copy₁.IsVariant rule₁)
    (hv₂ : copy₂.IsVariant rule₂) : copy₁.literals.length = copy₂.literals.length := by
  rw [hv₁.length, hv₂.length]
  exact ((List.forall₂_iff_zip.1 S.rules).2 hrules).2

namespace InStep

theorem head (h : InStep E (goal₁ :: ls₁) (goal₂ :: ls₂) ps b₁ b₂) : (goal₁, goal₂) ∈ ps :=
  (List.forall₂_cons.1 h.literals).1

theorem tail (h : InStep E (goal₁ :: ls₁) (goal₂ :: ls₂) ps b₁ b₂) :
    List.Forall₂ (fun l₁ l₂ => (l₁, l₂) ∈ ps) ls₁ ls₂ :=
  (List.forall₂_cons.1 h.literals).2

/-- Rules in the same place are both for the goals or both not. -/
theorem test_eq (S : Simulation kb₁ kb₂ E)
    (h : InStep E (goal₁ :: ls₁) (goal₂ :: ls₂) ps b₁ b₂) {rule₁ rule₂ : Rule}
    (hrules : (rule₁, rule₂) ∈ kb₁.rules.zip kb₂.rules) :
    rule₁.head.predicate.equals goal₁.predicate = rule₂.head.predicate.equals goal₂.predicate := by
  obtain ⟨-, -, hgoal⟩ := S.pair h.related h.head
  rw [hgoal, ((List.forall₂_iff_zip.1 S.rules).2 hrules).1]

/-- A fact unifies with both goals or with neither. -/
theorem fact (S : Simulation kb₁ kb₂ E) (h : InStep E (goal₁ :: ls₁) (goal₂ :: ls₂) ps b₁ b₂)
    {f : Literal} (hf : f ∈ kb₁.facts) {r₁ r₂ : Option Bindings}
    (h₁ : unifyLiterals goal₁ f b₁ = .ok r₁) (h₂ : unifyLiterals goal₂ f b₂ = .ok r₂) :
    Option.Rel (InStep E ls₁ ls₂ ((f, f) :: ps)) r₁ r₂ := by
  have hrelated := S.fact h.related hf
  have hrel := S.unify hrelated (List.mem_cons_of_mem _ h.head) List.mem_cons_self h₁ h₂
  have hground := S.ground f hf
  obtain ⟨hb₁, hb₂⟩ := S.bindings h.related
  obtain ⟨hgoal₁, hgoal₂, -⟩ := S.pair h.related h.head
  obtain ⟨hfact, -, -⟩ := S.pair hrelated List.mem_cons_self
  cases hrel with
  | none => exact .none
  | some hc =>
    refine .some ⟨hc, h.tail.imp fun _ _ => List.mem_cons_of_mem _, ?_, ?_⟩
    · exact h.left.join [] hgoal₁ hfact hb₁ h₁ (by simp [hground])
    · exact h.right.join [] hgoal₂ hfact hb₂ h₂ (by simp [hground])

/-- The heads of fresh copies unify with both goals or with neither, and then the bodies are
in play. -/
theorem enter (S : Simulation kb₁ kb₂ E) (h : InStep E (goal₁ :: ls₁) (goal₂ :: ls₂) ps b₁ b₂)
    {rule₁ rule₂ copy₁ copy₂ : Rule} (hrules : (rule₁, rule₂) ∈ kb₁.rules.zip kb₂.rules)
    (hcopy₁ : FreshCopy rule₁ copy₁ (goal₁ :: ls₁) b₁)
    (hcopy₂ : FreshCopy rule₂ copy₂ (goal₂ :: ls₂) b₂) {r₁ r₂ : Option Bindings}
    (h₁ : unifyLiterals goal₁ copy₁.head b₁ = .ok r₁)
    (h₂ : unifyLiterals goal₂ copy₂.head b₂ = .ok r₂) :
    Option.Rel (InStep E (copy₁.body ++ ls₁) (copy₂.body ++ ls₂) (copy₁.pairs copy₂ ++ ps))
      r₁ r₂ := by
  have hlength := S.length_eq hrules hcopy₁.isVariant hcopy₂.isVariant
  have hrelated := S.copy h.related hrules (h.left.freshCopy hcopy₁) (h.right.freshCopy hcopy₂)
  have hpairs := Rule.forall₂_pairs hlength
  obtain ⟨hhead, hbody⟩ := List.forall₂_cons.1 hpairs
  have hhead' : (copy₁.head, copy₂.head) ∈ copy₁.pairs copy₂ ++ ps := List.mem_append_left _ hhead
  have hrel := S.unify hrelated (List.mem_append_right _ h.head) hhead' h₁ h₂
  obtain ⟨hb₁, hb₂⟩ := S.bindings h.related
  obtain ⟨hgoal₁, hgoal₂, -⟩ := S.pair h.related h.head
  obtain ⟨hmeets₁, hmeets₂, -⟩ := S.pair hrelated hhead'
  have happart₁ : ∀ v ∈ goal₁.occurrences, v ∉ copy₁.head.occurrences := fun v hv hvc =>
    hcopy₁.literals v (Rule.mem_occurrences.2 (.inl hvc)) goal₁ List.mem_cons_self hv
  have happart₂ : ∀ v ∈ goal₂.occurrences, v ∉ copy₂.head.occurrences := fun v hv hvc =>
    hcopy₂.literals v (Rule.mem_occurrences.2 (.inl hvc)) goal₂ List.mem_cons_self hv
  cases hrel with
  | none => exact .none
  | some hc =>
    refine .some ⟨hc, ?_, ?_, ?_⟩
    · refine List.rel_append ?_ ?_
      · exact hbody.imp fun _ _ => List.mem_append_left _
      · exact h.tail.imp fun _ _ => List.mem_append_right _
    · rw [List.map_append, Rule.pairs, List.map_fst_zip hlength.le]
      exact h.left.join _ hgoal₁ hmeets₁ hb₁ h₁ happart₁
    · rw [List.map_append, Rule.pairs, List.map_snd_zip hlength.ge]
      exact h.right.join _ hgoal₂ hmeets₂ hb₂ h₂ happart₂

/-- The same fact is found for both goals, or none is. -/
theorem firstMatch (S : Simulation kb₁ kb₂ E)
    (h : InStep E (goal₁ :: ls₁) (goal₂ :: ls₂) ps b₁ b₂) {facts : List Literal}
    (hfacts : ∀ f ∈ facts, f ∈ kb₁.facts) {r₁ r₂ : Option (Literal × Bindings)}
    (h₁ : KnowledgeBase.firstMatch goal₁ b₁ facts = .ok r₁)
    (h₂ : KnowledgeBase.firstMatch goal₂ b₂ facts = .ok r₂) :
    Option.Rel (fun m₁ m₂ => m₁.1 = m₂.1 ∧ InStep E ls₁ ls₂ ((m₁.1, m₁.1) :: ps) m₁.2 m₂.2)
      r₁ r₂ := by
  induction facts with
  | nil =>
    obtain rfl := Except.ok.inj h₁
    obtain rfl := Except.ok.inj h₂
    exact .none
  | cons f facts ih =>
    obtain ⟨hf, hfacts⟩ := List.forall_mem_cons.1 hfacts
    rw [KnowledgeBase.firstMatch] at h₁ h₂
    rcases e₁ : unifyLiterals goal₁ f b₁ with fault | u₁
    · simp [e₁] at h₁
    · rcases e₂ : unifyLiterals goal₂ f b₂ with fault | u₂
      · simp [e₂] at h₂
      · have hrel := h.fact S hf e₁ e₂
        rw [e₁] at h₁
        rw [e₂] at h₂
        cases hrel with
        | none => exact ih hfacts h₁ h₂
        | some hc =>
          obtain rfl := Except.ok.inj h₁
          obtain rfl := Except.ok.inj h₂
          exact .some ⟨rfl, hc⟩

end InStep

/-! ### Courses in lockstep -/

/-- Two tasks about the same thing: as many goals, or rules in the same places. -/
inductive Task.Matches (kb₁ kb₂ : KnowledgeBase) : Task → Task → Prop where
  | goals {gs₁ gs₂ : List Literal} :
      gs₁.length = gs₂.length → Task.Matches kb₁ kb₂ (.goals gs₁) (.goals gs₂)
  | goal {g₁ g₂ : Literal} : Task.Matches kb₁ kb₂ (.goal g₁) (.goal g₂)
  | rules {g₁ g₂ : Literal} {rs₁ rs₂ : List Rule} :
      List.Forall₂ (fun r₁ r₂ => (r₁, r₂) ∈ kb₁.rules.zip kb₂.rules) rs₁ rs₂ →
      Task.Matches kb₁ kb₂ (.rules g₁ rs₁) (.rules g₂ rs₂)

/-- Endings of the same kind.  Proofs have the same shape, and after them the searches are
in step about more pairs than before.  Goals that are too deep are a pair. -/
inductive Agree (kb₁ kb₂ : KnowledgeBase) (E : Pairing → Bindings → Bindings → Prop)
    (ls₁ ls₂ : List Literal) (ps : Pairing) : Ending → Ending → Prop where
  | proved {qs : Pairing} {c₁ c₂ : Bindings} {nodes₁ nodes₂ : List ProofNode} :
      ps ⊆ qs → InStep E ls₁ ls₂ qs c₁ c₂ →
      SameShape kb₁ kb₂ (fun l₁ l₂ => (l₁, l₂) ∈ qs) nodes₁ nodes₂ →
      Agree kb₁ kb₂ E ls₁ ls₂ ps (.proved c₁ nodes₁) (.proved c₂ nodes₂)
  | failed : Agree kb₁ kb₂ E ls₁ ls₂ ps .failed .failed
  | tooDeep {qs : Pairing} {goal₁ goal₂ : Literal} {c₁ c₂ : Bindings} :
      E qs c₁ c₂ → (goal₁, goal₂) ∈ qs →
      Agree kb₁ kb₂ E ls₁ ls₂ ps (.tooDeep goal₁ c₁) (.tooDeep goal₂ c₂)
  | endless : Agree kb₁ kb₂ E ls₁ ls₂ ps .endless .endless

namespace Agree

variable {e₁ e₂ : Ending} {qs : Pairing}

theorem after {nodes₁ nodes₂ : List ProofNode} (h : Agree kb₁ kb₂ E ls₁ ls₂ qs e₁ e₂)
    (hsub : ps ⊆ qs) (hnodes : SameShape kb₁ kb₂ (fun l₁ l₂ => (l₁, l₂) ∈ qs) nodes₁ nodes₂) :
    Agree kb₁ kb₂ E ls₁ ls₂ ps (e₁.after nodes₁) (e₂.after nodes₂) := by
  cases h with
  | proved hsub' hstep hrest =>
    refine .proved (List.Subset.trans hsub hsub') hstep ?_
    exact (hnodes.mono fun _ _ hpair => hsub' hpair).append hrest
  | failed => exact .failed
  | tooDeep hrelated hgoal => exact .tooDeep hrelated hgoal
  | endless => exact .endless

theorem close {rule₁ rule₂ copy₁ copy₂ : Rule} {depth : Nat}
    (h : Agree kb₁ kb₂ E ls₁ ls₂ (copy₁.pairs copy₂ ++ ps) e₁ e₂) (hgoal : (goal₁, goal₂) ∈ ps)
    (hrules : (rule₁, rule₂) ∈ kb₁.rules.zip kb₂.rules) (hv₁ : copy₁.IsVariant rule₁)
    (hv₂ : copy₂.IsVariant rule₂) (hlength : copy₁.literals.length = copy₂.literals.length) :
    Agree kb₁ kb₂ E ls₁ ls₂ ps (e₁.close goal₁ copy₁ depth) (e₂.close goal₂ copy₂ depth) := by
  cases h with
  | proved hsub hstep hchildren =>
    have hsub' := List.append_subset.1 hsub
    refine .proved hsub'.2 hstep (.rule (hsub'.2 hgoal) hrules hv₁ hv₂ ?_ hchildren .nil)
    exact (Rule.forall₂_pairs hlength).imp fun _ _ hpair => hsub'.1 hpair
  | failed => exact .failed
  | tooDeep hrelated hdeep => exact .tooDeep hrelated hdeep
  | endless => exact .endless

theorem proof?_eq_none_iff (h : Agree kb₁ kb₂ E ls₁ ls₂ ps e₁ e₂) :
    e₁.proof? = none ↔ e₂.proof? = none := by
  cases h <;> simp [Ending.proof?]

theorem eq_failed_iff (h : Agree kb₁ kb₂ E ls₁ ls₂ ps e₁ e₂) : e₁ = .failed ↔ e₂ = .failed := by
  cases h <;> simp

end Agree

/-- **Searches in step come to the same ending.** -/
theorem Course.agree (S : Simulation kb₁ kb₂ E) {limit : Option Nat} {levels depth : Nat}
    {pending₁ pending₂ : List Literal} {task₁ task₂ : Task} {e₁ e₂ : Ending}
    (h₁ : Course kb₁ limit levels depth pending₁ task₁ b₁ e₁)
    (h₂ : Course kb₂ limit levels depth pending₂ task₂ b₂ e₂) (htask : task₁.Matches kb₁ kb₂ task₂)
    (hstep : InStep E (task₁.literals ++ pending₁) (task₂.literals ++ pending₂) ps b₁ b₂) :
    Agree kb₁ kb₂ E pending₁ pending₂ ps e₁ e₂ := by
  -- on the first course; what the second one does is forced step by step
  induction h₁ generalizing pending₂ task₂ b₂ e₂ ps with
  | nil =>
    cases htask with
    | goals hlength =>
      cases h₂ with
      | nil => exact .proved (List.Subset.refl _) hstep .nil
      | cons => cases hlength
      | halt => cases hlength
  | cons _ _ ihgoal ih =>
    cases htask with
    | goals hlength =>
      cases h₂ with
      | nil => cases hlength
      | cons hgoal₂ hrest₂ =>
        cases ihgoal hgoal₂ .goal hstep with
        | proved hsub hstep' hnodes =>
          exact (ih hrest₂ (.goals (Nat.succ.inj hlength)) hstep').after hsub hnodes
      | halt hgoal₂ hproof =>
        have hagree := ihgoal hgoal₂ .goal hstep
        exact absurd (hagree.proof?_eq_none_iff.2 hproof) (by simp [Ending.proof?])
  | halt _ hproof ihgoal =>
    cases htask with
    | goals hlength =>
      cases h₂ with
      | nil => cases hlength
      | cons hgoal₂ hrest₂ =>
        have hagree := ihgoal hgoal₂ .goal hstep
        exact absurd (hagree.proof?_eq_none_iff.1 hproof) (by simp [Ending.proof?])
      | halt hgoal₂ hproof₂ =>
        cases ihgoal hgoal₂ .goal hstep with
        | proved => cases hproof
        | failed => exact .failed
        | tooDeep hrelated hdeep => exact .tooDeep hrelated hdeep
        | endless => exact .endless
  | tooDeep hlimit =>
    cases htask with
    | goal =>
      cases h₂ with
      | tooDeep => exact .tooDeep hstep.related hstep.head
      | endless hallows => exact absurd hallows hlimit
      | fact hallows => exact absurd hallows hlimit
      | rules hallows => exact absurd hallows hlimit
  | endless hallows =>
    cases htask with
    | goal =>
      cases h₂ with
      | tooDeep hlimit => exact absurd hallows hlimit
      | endless => exact .endless
  | fact hallows hfact =>
    cases htask with
    | goal =>
      cases h₂ with
      | tooDeep hlimit => exact absurd hallows hlimit
      | fact _ hfact₂ =>
        rw [← S.facts] at hfact₂
        cases hstep.firstMatch S (fun f hf => hf) hfact hfact₂ with
        | some hc =>
          obtain ⟨rfl, hstep'⟩ := hc
          refine .proved (List.subset_cons_self _ _) hstep' ?_
          exact .fact (List.mem_cons_of_mem _ hstep.head) List.mem_cons_self .nil
      | rules _ hfacts₂ =>
        rw [← S.facts] at hfacts₂
        cases hstep.firstMatch S (fun f hf => hf) hfact hfacts₂
  | rules hallows hfacts _ ih =>
    cases htask with
    | goal =>
      cases h₂ with
      | tooDeep hlimit => exact absurd hallows hlimit
      | fact _ hfact₂ =>
        rw [← S.facts] at hfact₂
        cases hstep.firstMatch S (fun f hf => hf) hfacts hfact₂
      | rules _ _ hrules₂ =>
        refine ih hrules₂ (.rules ?_) hstep
        exact List.forall₂_iff_zip.2 ⟨S.rules.length_eq, fun {_ _} h => h⟩
  | exhausted =>
    cases htask with
    | rules hrules =>
      cases hrules
      cases h₂ with
      | exhausted => exact .failed
  | skip hpredicate _ ih =>
    cases htask with
    | rules hrules =>
      cases hrules with
      | cons hrule hrules =>
        have htest := hstep.test_eq S hrule
        cases h₂ with
        | skip _ hrest₂ => exact ih hrest₂ (.rules hrules) hstep
        | clash hpredicate₂ => cases hpredicate.symm.trans (htest.trans hpredicate₂)
        | next hpredicate₂ => cases hpredicate.symm.trans (htest.trans hpredicate₂)
        | take hpredicate₂ => cases hpredicate.symm.trans (htest.trans hpredicate₂)
  | clash hpredicate hcopy hunify _ ih =>
    cases htask with
    | rules hrules =>
      cases hrules with
      | cons hrule hrules =>
        have htest := hstep.test_eq S hrule
        cases h₂ with
        | skip hpredicate₂ => cases hpredicate.symm.trans (htest.trans hpredicate₂)
        | clash _ _ _ hrest₂ => exact ih hrest₂ (.rules hrules) hstep
        | next _ hcopy₂ hunify₂ => cases hstep.enter S hrule hcopy hcopy₂ hunify hunify₂
        | take _ hcopy₂ hunify₂ => cases hstep.enter S hrule hcopy hcopy₂ hunify hunify₂
  | next hpredicate hcopy hunify _ _ ihbody ih =>
    cases htask with
    | rules hrules =>
      cases hrules with
      | cons hrule hrules =>
        have htest := hstep.test_eq S hrule
        cases h₂ with
        | skip hpredicate₂ => cases hpredicate.symm.trans (htest.trans hpredicate₂)
        | clash _ hcopy₂ hunify₂ => cases hstep.enter S hrule hcopy hcopy₂ hunify hunify₂
        | next _ _ _ _ hrest₂ => exact ih hrest₂ (.rules hrules) hstep
        | take _ hcopy₂ hunify₂ hbody₂ hne =>
          cases hstep.enter S hrule hcopy hcopy₂ hunify hunify₂ with
          | some hbody =>
            have hlength := S.length_eq hrule hcopy.isVariant hcopy₂.isVariant
            have hagree := ihbody hbody₂ (.goals (Nat.succ.inj hlength)) hbody
            exact absurd (hagree.eq_failed_iff.1 rfl) hne
  | take hpredicate hcopy hunify _ hne ihbody =>
    cases htask with
    | rules hrules =>
      cases hrules with
      | cons hrule hrules =>
        have htest := hstep.test_eq S hrule
        cases h₂ with
        | skip hpredicate₂ => cases hpredicate.symm.trans (htest.trans hpredicate₂)
        | clash _ hcopy₂ hunify₂ => cases hstep.enter S hrule hcopy hcopy₂ hunify hunify₂
        | next _ hcopy₂ hunify₂ hbody₂ =>
          cases hstep.enter S hrule hcopy hcopy₂ hunify hunify₂ with
          | some hbody =>
            have hlength := S.length_eq hrule hcopy.isVariant hcopy₂.isVariant
            have hagree := ihbody hbody₂ (.goals (Nat.succ.inj hlength)) hbody
            exact absurd (hagree.eq_failed_iff.2 rfl) hne
        | take _ hcopy₂ hunify₂ hbody₂ =>
          cases hstep.enter S hrule hcopy hcopy₂ hunify hunify₂ with
          | some hbody =>
            have hlength := S.length_eq hrule hcopy.isVariant hcopy₂.isVariant
            have hagree := ihbody hbody₂ (.goals (Nat.succ.inj hlength)) hbody
            exact hagree.close hstep.head hrule hcopy.isVariant hcopy₂.isVariant hlength

end Steps

/-! ### Queries in lockstep -/

section Queries

open Resolver

variable {kb₁ kb₂ : KnowledgeBase} {E : Pairing → Bindings → Bindings → Prop}
variable {settings₁ settings₂ : Settings} {query₁ query₂ : Item} {goals₁ goals₂ : List Literal}
variable {b₁ b₂ : Bindings} {trail₁ trail₂ : Trail} {n₁ n₂ : Int}
variable {r₁ r₂ : Outcome ProofTree × Trail}

/-- Goals that are related are in step at the start. -/
theorem inStep_start (hlength : goals₁.length = goals₂.length)
    (h : E (goals₁.zip goals₂) b₁ b₂) :
    InStep E goals₁ goals₂ (goals₁.zip goals₂) b₁ b₂ where
  related := h
  literals := List.forall₂_iff_zip.2 ⟨hlength, fun {_ _} h => h⟩
  left := by
    rw [List.map_fst_zip hlength.le]
    exact .self _ _
  right := by
    rw [List.map_snd_zip hlength.ge]
    exact .self _ _

/-- What two related queries come to, with the same nesting and the same limit. -/
theorem agree_of_prove (S : Simulation kb₁ kb₂ E) (h₁ : WellPosed kb₁ query₁ goals₁ b₁)
    (h₂ : WellPosed kb₂ query₂ goals₂ b₂) (hlimit : settings₂.maxDepth = settings₁.maxDepth)
    (hlength : goals₁.length = goals₂.length) (hE : E (goals₁.zip goals₂) b₁ b₂)
    (htrail₁ : trail₁.source = ⟨.int n₁⟩) (htrail₂ : trail₂.source = ⟨.int n₂⟩) (levels : Nat) :
    ∃ e₁ e₂, Reports settings₁.maxDepth goals₁ (prove kb₁ settings₁ levels query₁ b₁ trail₁).1 e₁ ∧
      Reports settings₁.maxDepth goals₂ (prove kb₂ settings₂ levels query₂ b₂ trail₂).1 e₂ ∧
      Agree kb₁ kb₂ E [] [] (goals₁.zip goals₂) e₁ e₂ := by
  obtain ⟨e₁, hcourse₁, hreports₁⟩ := course_of_prove settings₁ levels h₁ htrail₁
  obtain ⟨e₂, hcourse₂, hreports₂⟩ := course_of_prove settings₂ levels h₂ htrail₂
  rw [hlimit] at hcourse₂ hreports₂
  refine ⟨e₁, e₂, hreports₁, hreports₂, hcourse₁.agree S hcourse₂ (.goals hlength) ?_⟩
  rw [Task.literals, Task.literals, List.append_nil, List.append_nil]
  exact inStep_start hlength hE

theorem Reports.eq_endless_iff {limit : Option Nat} {goals : List Literal}
    {o : Outcome ProofTree} {e : Ending} (h : Reports limit goals o e) :
    o = .stopped .endless ↔ e = .endless := by
  cases h with
  | tooDeep _ hfault => simp [hfault.ne_endless]
  | valid | invalid | endless => simp

theorem Agree.eq_endless_iff {ls₁ ls₂ : List Literal} {ps : Pairing} {e₁ e₂ : Ending}
    (h : Agree kb₁ kb₂ E ls₁ ls₂ ps e₁ e₂) : e₁ = .endless ↔ e₂ = .endless := by
  cases h <;> simp

/-- Outcomes of the same kind: valid trees that are related by `V`, trees that are not valid,
or stops at goals that are related by `D`, at the same limit. -/
inductive SameOutcome (V : ProofTree → ProofTree → Prop) (D : Literal → Literal → Prop) :
    Outcome ProofTree → Outcome ProofTree → Prop where
  | valid {tree₁ tree₂ : ProofTree} : tree₁.isValid = true → tree₂.isValid = true →
      V tree₁ tree₂ → SameOutcome V D (.proved tree₁) (.proved tree₂)
  | invalid {query₁ query₂ : List Item} :
      SameOutcome V D (.proved ⟨query₁, none⟩) (.proved ⟨query₂, none⟩)
  | tooDeep {N : Nat} {goal₁ goal₂ : Literal} {o₁ o₂ : Outcome ProofTree} :
      D goal₁ goal₂ → StoppedAt N goal₁ o₁ → StoppedAt N goal₂ o₂ → SameOutcome V D o₁ o₂

/-- Endings that agree are reported as outcomes of the same kind. -/
theorem Agree.sameOutcome {V : ProofTree → ProofTree → Prop} {D : Literal → Literal → Prop}
    {ps : Pairing} {limit : Option Nat} {e₁ e₂ : Ending} {o₁ o₂ : Outcome ProofTree}
    (h : Agree kb₁ kb₂ E [] [] ps e₁ e₂) (h₁ : Reports limit goals₁ o₁ e₁)
    (h₂ : Reports limit goals₂ o₂ e₂) (hne : e₁ ≠ .endless)
    (hV : ∀ qs c₁ c₂ nodes₁ nodes₂, ps ⊆ qs → E qs c₁ c₂ →
      SameShape kb₁ kb₂ (fun l₁ l₂ => (l₁, l₂) ∈ qs) nodes₁ nodes₂ →
      V ⟨goals₁.map .literal, some (c₁, nodes₁)⟩ ⟨goals₂.map .literal, some (c₂, nodes₂)⟩)
    (hD : ∀ qs c₁ c₂ goal₁ goal₂, E qs c₁ c₂ → (goal₁, goal₂) ∈ qs →
      D (goal₁.instantiate c₁.solution) (goal₂.instantiate c₂.solution)) :
    SameOutcome V D o₁ o₂ := by
  cases h with
  | proved hsub hstep hshape =>
    cases h₁
    cases h₂
    exact .valid rfl rfl (hV _ _ _ _ _ hsub hstep.related hshape)
  | failed =>
    cases h₁
    cases h₂
    exact .invalid
  | tooDeep hrelated hgoal =>
    cases h₁ with
    | tooDeep hN hfault =>
      cases h₂ with
      | tooDeep hN' hfault' =>
        obtain rfl := Option.some.inj (hN.symm.trans hN')
        exact .tooDeep (hD _ _ _ _ _ hrelated hgoal) ⟨_, hfault, rfl⟩ ⟨_, hfault', rfl⟩
  | endless => exact absurd rfl hne

/-- **Related queries end together**, and alike. -/
theorem ends_together (S : Simulation kb₁ kb₂ E) (h₁ : WellPosed kb₁ query₁ goals₁ b₁)
    (h₂ : WellPosed kb₂ query₂ goals₂ b₂) (hlimit : settings₂.maxDepth = settings₁.maxDepth)
    (hlength : goals₁.length = goals₂.length) (hE : E (goals₁.zip goals₂) b₁ b₂)
    (htrail₁ : trail₁.source = ⟨.int n₁⟩) (htrail₂ : trail₂.source = ⟨.int n₂⟩)
    {V : ProofTree → ProofTree → Prop} {D : Literal → Literal → Prop}
    (hV : ∀ qs c₁ c₂ nodes₁ nodes₂, goals₁.zip goals₂ ⊆ qs → E qs c₁ c₂ →
      SameShape kb₁ kb₂ (fun l₁ l₂ => (l₁, l₂) ∈ qs) nodes₁ nodes₂ →
      V ⟨goals₁.map .literal, some (c₁, nodes₁)⟩ ⟨goals₂.map .literal, some (c₂, nodes₂)⟩)
    (hD : ∀ qs c₁ c₂ goal₁ goal₂, E qs c₁ c₂ → (goal₁, goal₂) ∈ qs →
      D (goal₁.instantiate c₁.solution) (goal₂.instantiate c₂.solution)) :
    ((∃ r₁, Ends kb₁ settings₁ query₁ b₁ trail₁ r₁) ↔
      ∃ r₂, Ends kb₂ settings₂ query₂ b₂ trail₂ r₂) ∧
    ∀ r₁ r₂, Ends kb₁ settings₁ query₁ b₁ trail₁ r₁ → Ends kb₂ settings₂ query₂ b₂ trail₂ r₂ →
      SameOutcome V D r₁.1 r₂.1 := by
  have hagree := agree_of_prove S h₁ h₂ hlimit hlength hE htrail₁ htrail₂
  constructor
  · have hiff : ∀ levels, (prove kb₁ settings₁ levels query₁ b₁ trail₁).1 = .stopped .endless ↔
        (prove kb₂ settings₂ levels query₂ b₂ trail₂).1 = .stopped .endless := by
      intro levels
      obtain ⟨e₁, e₂, hreports₁, hreports₂, he⟩ := hagree levels
      rw [hreports₁.eq_endless_iff, hreports₂.eq_endless_iff, he.eq_endless_iff]
    constructor
    · rintro ⟨r₁, levels, rfl, hr⟩
      exact ⟨_, levels, rfl, mt (hiff levels).2 hr⟩
    · rintro ⟨r₂, levels, rfl, hr⟩
      exact ⟨_, levels, rfl, mt (hiff levels).1 hr⟩
  -- both ends are reached with the larger of the two amounts of nesting
  · rintro r₁ r₂ hends₁ hends₂
    obtain ⟨levels₁, hprove₁, hr₁⟩ := hends₁
    obtain ⟨levels₂, hprove₂, hr₂⟩ := hends₂
    obtain ⟨e₁, e₂, hreports₁, hreports₂, he⟩ := hagree (max levels₁ levels₂)
    rw [prove_eq_of_le hprove₁ hr₁ (le_max_left _ _)] at hreports₁
    rw [prove_eq_of_le hprove₂ hr₂ (le_max_right _ _)] at hreports₂
    exact he.sameOutcome hreports₁ hreports₂ (mt hreports₁.eq_endless_iff.2 hr₁) hV hD

end Queries

/-- The descendant is found without a limit. -/
theorem Family.exists_ends :
    ∃ tree trail, Resolver.Ends clauses {} (.list (goals.map .literal)) start
      { source := ⟨.int 5⟩ } (.proved tree, trail) ∧ tree.isValid = true := by
  obtain ⟨tree, trail, hprove, hvalid⟩ : ∃ tree trail,
      Resolver.prove clauses {} 9 (.list (goals.map .literal)) start { source := ⟨.int 5⟩ } =
        (.proved tree, trail) ∧ tree.isValid = true :=
    ⟨_, _, by cbv, by cbv⟩
  exact ⟨tree, trail, ⟨9, hprove, by simp⟩, hvalid⟩

end HornSearch
