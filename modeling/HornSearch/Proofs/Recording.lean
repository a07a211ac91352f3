/-
HornSearch/Proofs/Recording.lean

Unification with a record of what it does.  The answer to a unification does not tell
how often the algorithm calls itself, which occurs checks it makes and where it
extends an environment.  So the algorithm is written once more, line by line, and
notes these deeds in order.

* `record_answer`: without its record the recorded unification is the unification.

The recorded algorithm takes the nesting of calls that it is granted for an argument,
as the unification does.  A run settles (`Settles`) if from some nesting on neither its
answer nor its record depends on the nesting any more, and every deed succeeds: calls
return, occurs checks answer, and what is bound was not bound before.  Then nothing is
cut short, and the record is what unification does without any bound.
-/
import HornSearch.Unification

namespace HornSearch

/-- Something that is done to unify two items. -/
inductive Deed where
  /-- Two terms are unified under an environment. -/
  | called (x y : Item) (b : Bindings)
  /-- A variable is looked for in the full value of a function term. -/
  | searched (v : Variable) (y : Item) (b : Bindings)
  /-- An environment is extended by a binding. -/
  | extended (v : Variable) (y : Item) (b : Bindings)

/-- An answer, and what is done for it, in order. -/
structure Recorded where
  answer : Checked (Option Bindings)
  deeds : List Deed

/-- The same answer after other deeds. -/
def Recorded.after (deeds : List Deed) (run : Recorded) : Recorded :=
  ⟨run.answer, deeds ++ run.deeds⟩

/-- Unifies two items under an environment, with a record. -/
abbrev Recorder := Item → Item → Bindings → Recorded

/-! ### The algorithm -/

/-- Unifies two lists item by item, each under the bindings of the items before. -/
def recordEach (recorder : Recorder) : List Item → List Item → Bindings → Recorded
  | [], [], b => ⟨.ok (some b), []⟩
  | x :: xs, y :: ys, b =>
    match recorder x y b with
    | ⟨.ok (some c), deeds⟩ => (recordEach recorder xs ys c).after deeds
    | failed => failed
  | _, _, _ => ⟨.ok none, []⟩

/-- Binds an unbound variable to an item that is no bound variable, unless it
occurs in it. -/
def recordBind (v : Variable) (y : Item) (b : Bindings) : Recorded :=
  match y with
  | .term (.app _ _) =>
    match occursIn (.ofVariable v) y b with
    | .ok true => ⟨.ok none, [.searched v y b]⟩
    | .ok false =>
      ⟨(b.extend (.ofVariable v) y).map some, [.searched v y b, .extended v y b]⟩
    | .error e => ⟨.error e, [.searched v y b]⟩
  | _ => ⟨(b.extend (.ofVariable v) y).map some, [.extended v y b]⟩

/-- Unifies a variable with an item; whatever stands for either of them under the
environment goes to `recorder`. -/
def recordVariable (recorder : Recorder) (v : Variable) (y : Item) (b : Bindings) : Recorded :=
  if .ofVariable v == y then ⟨.ok (some b), []⟩ else
  match b.lookup (.ofVariable v) with
  | .error e => ⟨.error e, []⟩
  | .ok (some bound) => recorder y bound b
  | .ok none =>
    match y with
    | .term (.var w) =>
      match b.lookup (.ofVariable w) with
      | .error e => ⟨.error e, []⟩
      | .ok (some bound) => recorder (.ofVariable v) bound b
      | .ok none => recordBind v y b
    | _ => recordBind v y b

/-- Unifies two items, with `recorder` for the calls in it. -/
def recordStep (recorder : Recorder) : Recorder := fun x y b =>
  match x, y with
  | .term (.const a), .term (.const c) => ⟨.ok (if a.sameSymbol c then some b else none), []⟩
  | .term (.const _), .term (.var w) => recordVariable recorder w x b
  | .term (.var v), _ => recordVariable recorder v y b
  | .term (.app _ _), .term (.var w) => recordVariable recorder w x b
  | .term (.app f ts), .term (.app g us) =>
    if f.equals g then recordEach recorder (ts.map .term) (us.map .term) b
    else ⟨.ok none, []⟩
  | .term _, _ => ⟨.ok none, []⟩
  | _, _ => ⟨(textOrFault x.text?).bind fun text => .error (.notTerm text), []⟩

/-- Unifies two items with at most the given nesting of calls. -/
def recordWithin : Nat → Recorder
  | 0, x, y, b => ⟨.error .endless, [.called x y b]⟩
  | depth + 1, x, y, b => (recordStep (recordWithin depth) x y b).after [.called x y b]

/-- The items that are unified one by one for an operand: a term itself, the arguments
of a literal, the items of a sequence. -/
def Item.compared : Item → List Item
  | .literal l => l.args.map .term
  | .list xs | .tuple xs => xs
  | i => [i]

/-- Unifies two terms, two literals or two sequences, with at most the given nesting of
calls. -/
def record (depth : Nat) : Recorder := fun x y b =>
  match x, y with
  | .literal l, .literal m =>
    if l.predicate.equals m.predicate then recordEach (recordWithin depth) x.compared y.compared b
    else ⟨.ok none, []⟩
  | .list _, .list _ | .list _, .tuple _ | .tuple _, .list _ | .tuple _, .tuple _ =>
    recordEach (recordWithin depth) x.compared y.compared b
  | .term _, .term _ => recordWithin depth x y b
  | _, _ => ⟨.error (.cannotUnify x.kind y.kind), []⟩

/-! ### Forgetting the record -/

/-- The recorder gives the answers of the unifier. -/
def Recorder.Follows (recorder : Recorder) (unifier : Unifier) : Prop :=
  ∀ x y b, (recorder x y b).answer = unifier x y b

theorem recordBind_answer (v : Variable) (y : Item) (b : Bindings) :
    (recordBind v y b).answer = bindUnbound v y b := by
  cases y with
  | term t =>
    cases t with
    | app f ts =>
      unfold recordBind bindUnbound
      rcases occursIn (.ofVariable v) (.term (.app f ts)) b with _ | _ | _ <;> rfl
    | _ => rfl
  | _ => rfl

section Follows

variable {recorder : Recorder} {unifier : Unifier}

theorem Recorder.Follows.each (h : recorder.Follows unifier) (xs ys : List Item) (b : Bindings) :
    (recordEach recorder xs ys b).answer = unifyEach unifier xs ys b := by
  induction xs generalizing ys b with
  | nil => cases ys <;> rfl
  | cons x xs ih =>
    cases ys with
    | nil => rfl
    | cons y ys =>
      have hxy := h x y b
      rw [recordEach, unifyEach, ← hxy]
      rcases recorder x y b with ⟨_ | _ | c, deeds⟩
      · rfl
      · rfl
      · exact ih ys c

theorem Recorder.Follows.variable (h : recorder.Follows unifier) (v : Variable) (y : Item)
    (b : Bindings) : (recordVariable recorder v y b).answer = unifyVariable unifier v y b := by
  unfold recordVariable unifyVariable
  split
  · rfl
  · rcases b.lookup (.ofVariable v) with _ | _ | bound
    · rfl
    · cases y with
      | term t =>
        cases t with
        | var w =>
          dsimp only
          rcases b.lookup (.ofVariable w) with _ | _ | bound
          · rfl
          · exact recordBind_answer _ _ _
          · exact h _ _ _
        | _ => exact recordBind_answer _ _ _
      | _ => exact recordBind_answer _ _ _
    · exact h _ _ _

end Follows

theorem follows_recordWithin (depth : Nat) : (recordWithin depth).Follows (unifyWithin depth) := by
  induction depth with
  | zero => exact fun _ _ _ => rfl
  | succ depth ih =>
    intro x y b
    show (recordStep (recordWithin depth) x y b).answer = _
    cases x with
    | term t =>
      cases t with
      | var v => exact ih.variable _ _ _
      | const a =>
        cases y with
        | term u =>
          cases u with
          | var w => exact ih.variable _ _ _
          | _ => rfl
        | _ => rfl
      | app f ts =>
        cases y with
        | term u =>
          cases u with
          | var w => exact ih.variable _ _ _
          | const c => rfl
          | app g us =>
            unfold recordStep unifyWithin
            dsimp only
            split
            · exact ih.each _ _ _
            · rfl
        | _ => rfl
    | _ => rfl

/-- The recorded unification gives the answer of the unification. -/
theorem record_answer (x y : Item) (b : Bindings) :
    (record (nestingBound x.compared y.compared b) x y b).answer = unify x y b := by
  have hf := follows_recordWithin (nestingBound x.compared y.compared b)
  cases x with
  | literal l =>
    cases y with
    | literal m =>
      unfold record unify unifyLiterals
      dsimp only
      split
      · exact hf.each _ _ _
      · rfl
    | _ => rfl
  | list xs =>
    cases y with
    | list ys => exact hf.each _ _ _
    | tuple ys => exact hf.each _ _ _
    | _ => rfl
  | tuple xs =>
    cases y with
    | list ys => exact hf.each _ _ _
    | tuple ys => exact hf.each _ _ _
    | _ => rfl
  | term t =>
    cases y with
    | term u => exact hf _ _ _
    | _ => rfl
  | _ => rfl

/-! ### Runs that settle -/

/-- The call returns, the occurs check answers, or the variable was not bound and then
is. -/
def Deed.Succeeds : Deed → Prop
  | .called x y b => ∃ n r, ∀ depth, n ≤ depth → unifyWithin depth x y b = .ok r
  | .searched v y b => ∃ found, occursIn (.ofVariable v) y b = .ok found
  | .extended v y b => b.find? (.ofVariable v) = none ∧
      b.extend (.ofVariable v) y = .ok ⟨b.entries ++ [(.ofVariable v, y)]⟩

/-- From the nesting `n` on, the run has one answer and one record, all of whose deeds
succeed. -/
def Settles (n : Nat) (run : Nat → Recorded) : Prop :=
  ∃ r deeds, (∀ depth, n ≤ depth → run depth = ⟨.ok r, deeds⟩) ∧ ∀ deed ∈ deeds, deed.Succeeds

namespace Settles

variable {n m : Nat} {run : Nat → Recorded}

theorem pure (r : Option Bindings) : Settles n fun _ => ⟨.ok r, []⟩ :=
  ⟨r, [], fun _ _ => rfl, by simp⟩

/-- A run that settles has an answer. -/
theorem exists_answer (h : Settles n run) {answer : Checked (Option Bindings)}
    (he : (run n).answer = answer) : ∃ r, answer = .ok r := by
  obtain ⟨r, deeds, hrun, -⟩ := h
  exact ⟨r, by rw [← he, hrun n (Nat.le_refl n)]⟩

/-- A call settles one nesting later than what is done in it. -/
theorem call {x y : Item} {b : Bindings}
    (h : Settles n fun depth => recordStep (recordWithin depth) x y b) :
    Settles (n + 1) fun depth => recordWithin depth x y b := by
  obtain ⟨r, deeds, hrun, hs⟩ := h
  have hcall : ∀ depth, n + 1 ≤ depth →
      recordWithin depth x y b = ⟨.ok r, .called x y b :: deeds⟩ := by
    intro depth hd
    obtain ⟨d, rfl⟩ := Nat.exists_eq_add_one.2 (Nat.zero_lt_of_lt hd)
    exact congrArg (Recorded.after [.called x y b]) (hrun d (Nat.le_of_succ_le_succ hd))
  refine ⟨r, _, hcall, List.forall_mem_cons.2 ⟨⟨n + 1, r, fun depth hd => ?_⟩, hs⟩⟩
  rw [← follows_recordWithin, hcall depth hd]

end Settles

end HornSearch
