/-
HornSearch/Proofs/Courses.lean

The course of a search, whatever its ending.  `Course kb limit levels depth pending task b e`
says that a task, begun under bindings `b` with some nesting granted and other goals pending,
ends in `e`: with a proof, in failure, at a goal that is too deep, or without end.  There is
one rule for each thing that the search can do, and the serials of fresh copies are left out
of it: a copy may be any variant of the rule that shares no variable with the goal, the
pending goals and the bindings (`FreshCopy`).

So a course says what is attempted, in which order, and what comes of it, and nothing that
depends on a source of serials.  With enough nesting a limit is always met before the nesting
is used up (`Course.ne_endless`).
-/
import HornSearch.Proofs.ClosedTrees
import HornSearch.Proofs.Renamings
import HornSearch.Proofs.Texts

namespace HornSearch

/-! ### Tasks and endings -/

/-- What a search is about: to prove goals from left to right, to prove one goal, or to
prove one goal by the first of some rules that does. -/
inductive Task where
  | goals (gs : List Literal)
  | goal (g : Literal)
  | rules (g : Literal) (rs : List Rule)

/-- The goals that a task has to prove. -/
def Task.literals : Task → List Literal
  | .goals gs => gs
  | .goal g => [g]
  | .rules g _ => [g]

/-- The first depth at which a task is out of nesting.  A goal takes one level, and so do
the goals in the body of a rule, one deeper. -/
def Task.reach : Task → Nat → Nat → Nat
  | .goals _, levels, depth => levels + depth
  | .goal _, levels, depth => levels + depth
  | .rules _ _, levels, depth => levels + depth + 1

/-- How a search ends. -/
inductive Ending where
  /-- With proofs of its goals. -/
  | proved (b : Bindings) (nodes : List ProofNode)
  /-- Without a proof. -/
  | failed
  /-- At a goal that is deeper than allowed, under the bindings of that moment. -/
  | tooDeep (goal : Literal) (b : Bindings)
  /-- Not at all within the nesting that is granted. -/
  | endless

namespace Ending

/-- The bindings and the proofs, if there are any. -/
def proof? : Ending → Option (Bindings × List ProofNode)
  | .proved b nodes => some (b, nodes)
  | _ => none

/-- The ending of a conjunction whose first goals are proved by some nodes. -/
def after (nodes : List ProofNode) : Ending → Ending
  | .proved b rest => .proved b (nodes ++ rest)
  | e => e

/-- The ending of a goal whose rule has its body end like this. -/
def close (goal : Literal) (copy : Rule) (depth : Nat) : Ending → Ending
  | .proved b children => .proved b [.byRule goal copy children depth]
  | e => e

theorem after_nil (e : Ending) : e.after [] = e := by
  cases e <;> rfl

theorem after_after (e : Ending) (nodes rest : List ProofNode) :
    (e.after rest).after nodes = e.after (nodes ++ rest) := by
  cases e <;> simp [after]

theorem after_eq_endless_iff {e : Ending} {nodes : List ProofNode} :
    e.after nodes = .endless ↔ e = .endless := by
  cases e <;> simp [after]

theorem close_eq_endless_iff {e : Ending} {goal : Literal} {copy : Rule} {depth : Nat} :
    e.close goal copy depth = .endless ↔ e = .endless := by
  cases e <;> simp [close]

end Ending

/-! ### Variants -/

namespace Rule.IsVariant

variable {r s t : Rule}

theorem symm (h : s.IsVariant r) : r.IsVariant s := by
  obtain ⟨ρ, rfl, hρ⟩ := h
  have hinj : Set.InjOn ρ {v | v ∈ r.occurrences} := fun v hv w hw => hρ v hv w hw
  have hleft := hinj.leftInvOn_invFunOn
  let τ := Function.invFunOn ρ {v | v ∈ r.occurrences}
  refine ⟨τ, ?_, ?_⟩
  · rw [Rule.rename_rename]
    have hid : r.rename (fun v => τ (ρ v)) = r.rename fun v => v :=
      Rule.rename_congr fun v hv => hleft hv
    rw [hid, Rule.rename_id]
  · intro v hv w hw hvw
    obtain ⟨x, hx, rfl⟩ := Rule.mem_occurrences_rename.1 hv
    obtain ⟨y, hy, rfl⟩ := Rule.mem_occurrences_rename.1 hw
    have hx' : τ (ρ x) = x := hleft hx
    have hy' : τ (ρ y) = y := hleft hy
    rw [← hx', ← hy', hvw]

theorem trans (h : s.IsVariant r) (h' : t.IsVariant s) : t.IsVariant r := by
  obtain ⟨ρ, rfl, hρ⟩ := h
  obtain ⟨τ, rfl, hτ⟩ := h'
  refine ⟨fun v => τ (ρ v), Rule.rename_rename r, ?_⟩
  intro v hv w hw hvw
  have hv' : ρ v ∈ (r.rename ρ).occurrences := Rule.mem_occurrences_rename.2 ⟨v, hv, rfl⟩
  have hw' : ρ w ∈ (r.rename ρ).occurrences := Rule.mem_occurrences_rename.2 ⟨w, hw, rfl⟩
  exact hρ v hv w hw (hτ _ hv' _ hw' hvw)

end Rule.IsVariant

/-! ### Variables in use -/

/-- The variable is in one of the literals or in the bindings. -/
def InUse (ls : List Literal) (b : Bindings) (v : Variable) : Prop :=
  (∃ l ∈ ls, v ∈ l.occurrences) ∨ b.Mentions v

namespace InUse

variable {ls : List Literal} {b : Bindings} {v : Variable}

theorem isRegular (hls : ∀ l ∈ ls, l.meets .regular = true) (hb : b.Meets .regular)
    (hv : InUse ls b v) : v.isRegular = true := by
  rcases hv with ⟨l, hl, hvl⟩ | hvb
  · exact Literal.var_of_mem_occurrences (p := .regular) (hls l hl) hvl
  · exact hb.isRegular_of_mentions hvb

theorem rename {ρ : Variable → Variable} (hv : InUse ls b v) :
    InUse (ls.map (Literal.rename ρ)) (b.rename ρ) (ρ v) := by
  rcases hv with ⟨l, hl, hvl⟩ | ⟨w, t, ht, hvt⟩
  · refine .inl ⟨l.rename ρ, List.mem_map_of_mem hl, ?_⟩
    exact Literal.mem_occurrences_rename.2 ⟨v, hvl, rfl⟩
  · refine .inr ⟨ρ w, t.rename ρ, ht.rename, hvt.imp ?_ ?_⟩
    · rintro rfl
      rfl
    · exact fun hv => Term.mem_occurrences_rename.2 ⟨v, hv, rfl⟩

end InUse

/-- Finitely many variables are in use. -/
theorem exists_inUse (ls : List Literal) {b : Bindings} (hb : b.Meets .regular) :
    ∃ vs : List Variable, ∀ v, v ∈ vs ↔ InUse ls b v := by
  obtain ⟨bs, hbs⟩ := hb.exists_mentioned
  refine ⟨ls.flatMap Literal.occurrences ++ bs, fun v => ?_⟩
  rw [List.mem_append, List.mem_flatMap, hbs]
  exact Iff.rfl

/-! ### Fresh copies -/

/-- A variant of a rule that shares no variable with some literals or with an
environment. -/
structure FreshCopy (rule copy : Rule) (ls : List Literal) (b : Bindings) : Prop where
  isVariant : copy.IsVariant rule
  regular : ∀ v ∈ copy.occurrences, v.isRegular = true
  literals : ∀ v ∈ copy.occurrences, ∀ l ∈ ls, v ∉ l.occurrences
  bindings : ∀ v ∈ copy.occurrences, ¬ b.Mentions v

theorem FreshCopy.not_inUse {rule copy : Rule} {ls : List Literal} {b : Bindings} {v : Variable}
    (h : FreshCopy rule copy ls b) (hv : InUse ls b v) : v ∉ copy.occurrences := by
  intro hvc
  rcases hv with ⟨l, hl, hvl⟩ | hvb
  · exact h.literals v hvc l hl hvl
  · exact h.bindings v hvc hvb

/-! ### Courses -/

/-- No limit is exceeded at a depth. -/
def Allows (limit : Option Nat) (depth : Nat) : Prop := ∀ N, limit = some N → depth ≤ N

/-- The task ends in some way; the bodies of the rules of a task `Task.rules` are granted
its nesting. -/
inductive Course (kb : KnowledgeBase) (limit : Option Nat) :
    Nat → Nat → List Literal → Task → Bindings → Ending → Prop where
  | nil {levels depth : Nat} {pending : List Literal} {b : Bindings} :
      Course kb limit levels depth pending (.goals []) b (.proved b [])
  | cons {levels depth : Nat} {pending goals : List Literal} {goal : Literal} {b c : Bindings}
      {nodes : List ProofNode} {e : Ending} :
      Course kb limit levels depth (goals ++ pending) (.goal goal) b (.proved c nodes) →
      Course kb limit levels depth pending (.goals goals) c e →
      Course kb limit levels depth pending (.goals (goal :: goals)) b (e.after nodes)
  | halt {levels depth : Nat} {pending goals : List Literal} {goal : Literal} {b : Bindings}
      {e : Ending} :
      Course kb limit levels depth (goals ++ pending) (.goal goal) b e → e.proof? = none →
      Course kb limit levels depth pending (.goals (goal :: goals)) b e
  | tooDeep {levels depth : Nat} {pending : List Literal} {goal : Literal} {b : Bindings} :
      ¬ Allows limit depth →
      Course kb limit levels depth pending (.goal goal) b (.tooDeep goal b)
  | endless {depth : Nat} {pending : List Literal} {goal : Literal} {b : Bindings} :
      Allows limit depth → Course kb limit 0 depth pending (.goal goal) b .endless
  | fact {levels depth : Nat} {pending : List Literal} {goal fact : Literal} {b c : Bindings} :
      Allows limit depth → KnowledgeBase.firstMatch goal b kb.facts = .ok (some (fact, c)) →
      Course kb limit (levels + 1) depth pending (.goal goal) b
        (.proved c [.byFact goal fact depth])
  | rules {levels depth : Nat} {pending : List Literal} {goal : Literal} {b : Bindings}
      {e : Ending} :
      Allows limit depth → KnowledgeBase.firstMatch goal b kb.facts = .ok none →
      Course kb limit levels depth pending (.rules goal kb.rules) b e →
      Course kb limit (levels + 1) depth pending (.goal goal) b e
  | exhausted {levels depth : Nat} {pending : List Literal} {goal : Literal} {b : Bindings} :
      Course kb limit levels depth pending (.rules goal []) b .failed
  | skip {levels depth : Nat} {pending : List Literal} {goal : Literal} {rule : Rule}
      {rules : List Rule} {b : Bindings} {e : Ending} :
      rule.head.predicate.equals goal.predicate = false →
      Course kb limit levels depth pending (.rules goal rules) b e →
      Course kb limit levels depth pending (.rules goal (rule :: rules)) b e
  | clash {levels depth : Nat} {pending : List Literal} {goal : Literal} {rule copy : Rule}
      {rules : List Rule} {b : Bindings} {e : Ending} :
      rule.head.predicate.equals goal.predicate = true →
      FreshCopy rule copy (goal :: pending) b → unifyLiterals goal copy.head b = .ok none →
      Course kb limit levels depth pending (.rules goal rules) b e →
      Course kb limit levels depth pending (.rules goal (rule :: rules)) b e
  | next {levels depth : Nat} {pending : List Literal} {goal : Literal} {rule copy : Rule}
      {rules : List Rule} {b c : Bindings} {e : Ending} :
      rule.head.predicate.equals goal.predicate = true →
      FreshCopy rule copy (goal :: pending) b → unifyLiterals goal copy.head b = .ok (some c) →
      Course kb limit levels (depth + 1) pending (.goals copy.body) c .failed →
      Course kb limit levels depth pending (.rules goal rules) b e →
      Course kb limit levels depth pending (.rules goal (rule :: rules)) b e
  | take {levels depth : Nat} {pending : List Literal} {goal : Literal} {rule copy : Rule}
      {rules : List Rule} {b c : Bindings} {e : Ending} :
      rule.head.predicate.equals goal.predicate = true →
      FreshCopy rule copy (goal :: pending) b → unifyLiterals goal copy.head b = .ok (some c) →
      Course kb limit levels (depth + 1) pending (.goals copy.body) c e → e ≠ .failed →
      Course kb limit levels depth pending (.rules goal (rule :: rules)) b (e.close goal copy depth)

namespace Course

variable {kb : KnowledgeBase} {limit : Option Nat} {levels depth : Nat}
variable {pending : List Literal} {task : Task} {b : Bindings} {e : Ending}

/-- **With enough nesting a limit is met first.** -/
theorem ne_endless {N : Nat} (h : Course kb limit levels depth pending task b e)
    (hN : limit = some N) (hlt : N < task.reach levels depth) : e ≠ .endless := by
  induction h with
  | nil => simp
  | cons _ _ _ ih =>
    have hrest := ih hlt
    rintro he
    rw [Ending.after_eq_endless_iff] at he
    exact hrest he
  | halt _ _ ih => exact ih hlt
  | tooDeep => simp
  | endless hallows =>
    have hle := hallows N hN
    rw [Task.reach] at hlt
    omega
  | fact => simp
  | rules _ _ _ ih =>
    apply ih
    simp only [Task.reach] at hlt ⊢
    omega
  | exhausted => simp
  | skip _ _ ih => exact ih hlt
  | clash _ _ _ _ ih => exact ih hlt
  | next _ _ _ _ _ _ ih => exact ih hlt
  | take _ _ _ _ _ ihbody =>
    have hbody := ihbody (by simp only [Task.reach] at hlt ⊢; omega)
    rintro he
    rw [Ending.close_eq_endless_iff] at he
    exact hbody he

end Course

end HornSearch
