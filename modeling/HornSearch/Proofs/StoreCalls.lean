/-
HornSearch/Proofs/StoreCalls.lean

What a call does to the lists of a knowledge base.  A call that adds a clause appends it to
two lists, one after the other (`KnowledgeBase.push`), and a call that is refused is refused
before it has touched either: there is one lemma for each way in which a call can end.

`KnowledgeBase.ofList` is the knowledge base that is made of a list of clauses.
-/
import HornSearch.KnowledgeBase

namespace HornSearch

namespace KnowledgeBase

variable {kb : KnowledgeBase} {cs ds : List Clause}

/-! ### Clauses that are appended -/

/-- A clause at the end of its own list and at the end of the list of all clauses. -/
def push (kb : KnowledgeBase) : Clause → KnowledgeBase
  | .fact l => { kb with facts := kb.facts ++ [l], clauses := kb.clauses ++ [.fact l] }
  | .rule r => { kb with rules := kb.rules ++ [r], clauses := kb.clauses ++ [.rule r] }

/-- Some clauses, appended one after another. -/
def pushAll (kb : KnowledgeBase) (cs : List Clause) : KnowledgeBase := cs.foldl push kb

/-- The knowledge base that is made of some clauses. -/
def ofList (cs : List Clause) : KnowledgeBase := empty.pushAll cs

theorem pushAll_append : kb.pushAll (cs ++ ds) = (kb.pushAll cs).pushAll ds :=
  List.foldl_append

theorem clauses_pushAll : (kb.pushAll cs).clauses = kb.clauses ++ cs := by
  induction cs generalizing kb with
  | nil => exact (List.append_nil _).symm
  | cons c cs ih =>
    have hpush : (kb.push c).clauses = kb.clauses ++ [c] := by cases c <;> rfl
    rw [pushAll, List.foldl_cons, ← pushAll, ih, hpush, List.append_assoc]
    rfl

theorem facts_pushAll : (kb.pushAll cs).facts = kb.facts ++ cs.filterMap Clause.fact? := by
  induction cs generalizing kb with
  | nil => exact (List.append_nil _).symm
  | cons c cs ih =>
    rw [pushAll, List.foldl_cons, ← pushAll, ih]
    cases c <;> simp [push, List.filterMap_cons, Clause.fact?]

theorem rules_pushAll : (kb.pushAll cs).rules = kb.rules ++ cs.filterMap Clause.rule? := by
  induction cs generalizing kb with
  | nil => exact (List.append_nil _).symm
  | cons c cs ih =>
    rw [pushAll, List.foldl_cons, ← pushAll, ih]
    cases c <;> simp [push, List.filterMap_cons, Clause.rule?]

@[simp] theorem clauses_ofList : (ofList cs).clauses = cs := clauses_pushAll

@[simp] theorem facts_ofList : (ofList cs).facts = cs.filterMap Clause.fact? := facts_pushAll

@[simp] theorem rules_ofList : (ofList cs).rules = cs.filterMap Clause.rule? := rules_pushAll

end KnowledgeBase

/-! ### Calls -/

namespace Storing

variable (kb : KnowledgeBase) {l : Literal} {i : Item}

theorem perform_rule (r : Rule) : (rule r).perform kb = (.ok (), kb.push (.rule r)) := rfl

theorem clause_eq_fact (h : ∀ r, i ≠ .rule r) : clause i = fact i := by
  cases i with
  | rule r => exact absurd rfl (h r)
  | _ => rfl

theorem perform_fact (h : l.isGround = true) :
    (fact (.literal l)).perform kb = (.ok (), kb.push (.fact l)) := by
  simp only [fact, h]
  rfl

/-- What a fact is refused for, given its text. -/
def complaint : Item → String → Fault
  | .literal _ => .factNotGround
  | _ => .factNotLiteral

/-- The fault of a fact that is refused; if it has no text, that of asking for one. -/
def refusal (i : Item) : Fault :=
  match i.text? with
  | .ok text => complaint i text
  | .error flaw => flaw.fault

/-- A fact that is refused leaves the lists as they are. -/
theorem perform_fact_refused (h : ∀ l, i = .literal l → l.isGround = false) :
    (fact i).perform kb = (.error (refusal i), kb) := by
  cases i with
  | literal l =>
    have htext : (Item.literal l).text? = l.text? := rfl
    simp only [fact, refusal, h l rfl, htext]
    cases l.text? <;> rfl
  | term i | rule i | list i | tuple i | raw i =>
    simp only [fact, refusal]
    generalize Item.text? _ = text
    cases text <;> rfl

end Storing

end HornSearch
