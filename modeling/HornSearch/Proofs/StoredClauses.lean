/-
HornSearch/Proofs/StoredClauses.lean

What a knowledge base holds after any calls.  A call hands over an item as a fact, a head and a
body as a rule, or an item as a clause (`Addition`), and the item can be anything.  Which
literal or rule a call is to add is said without the knowledge base and by the occurrences of
variables (`Addition.fact?`, `Addition.rule?`); that the program asks another recursion whether
a literal is ground makes no difference (`Literal.isGround_iff`).

One lemma tells all that a call does to the three lists: it appends its clause to two of them,
or it is improper and leaves them as they are (`Addition.perform_cases`).  So a run of calls
appends their clauses (`afterCalls_eq`), and the lists are in step after it
(`holds_afterCalls`).  The arguments that a knowledge base is made of are calls too
(`ofClauses_eq`).

A refused item is shown by its text.  Literals whose predicates are no strings are kept out
here, and then only a number that is too long to be written is in the way of the text; the
call is refused all the same, but by the fault of that number (`refused_for_number`).
-/
import HornSearch.FreeVariables
import HornSearch.Proofs.Documents
import HornSearch.Proofs.Texts

namespace HornSearch

/-! ### Predicates that are strings -/

namespace Value

mutual

/-- Whether the predicate of every quoted literal in the value is a string. -/
def hasStringPredicates : Value → Bool
  | .list xs | .tuple xs => haveStringPredicates xs
  | .object fs => fieldsHaveStringPredicates fs
  | .quoted .literal (predicate :: args) => predicate.isString && haveStringPredicates args
  | .quoted _ parts => haveStringPredicates parts
  | _ => true

/-- Whether this is so in every value of the list. -/
def haveStringPredicates : List Value → Bool
  | [] => true
  | x :: xs => hasStringPredicates x && haveStringPredicates xs

/-- Whether this is so in every key and value of the fields. -/
def fieldsHaveStringPredicates : List (Value × Value) → Bool
  | [] => true
  | (key, x) :: fs => hasStringPredicates key && hasStringPredicates x &&
      fieldsHaveStringPredicates fs

end

variable {a : Value} {as : List Value}

theorem haveStringPredicates_iff :
    haveStringPredicates as = true ↔ ∀ a ∈ as, a.hasStringPredicates = true := by
  induction as with
  | nil => simp [haveStringPredicates]
  | cons a as ih => simp [haveStringPredicates, ih]

theorem fieldsHaveStringPredicates_iff {fs : List (Value × Value)} :
    fieldsHaveStringPredicates fs = true ↔
      ∀ f ∈ fs, f.1.hasStringPredicates = true ∧ f.2.hasStringPredicates = true := by
  induction fs with
  | nil => simp [fieldsHaveStringPredicates]
  | cons f fs ih => simp [fieldsHaveStringPredicates, ih]

theorem hasStringPredicates_of_isString (h : a.isString = true) : a.hasStringPredicates = true := by
  cases a <;> simp_all [isString, string?, hasStringPredicates]

/-- What the parts of syntax are; of a literal the predicate is its first part. -/
theorem hasStringPredicates_parts {shape : Shape}
    (h : (quoted shape as).hasStringPredicates = true) :
    (∀ a ∈ as, a.hasStringPredicates = true) ∧
      ∀ a, shape = .literal → as = [a] → a.isString = true := by
  cases shape with
  | literal =>
    match as, h with
    | [], _ => simp
    | predicate :: args, h =>
      rw [hasStringPredicates, Bool.and_eq_true_iff, haveStringPredicates_iff] at h
      obtain ⟨hpredicate, hargs⟩ := h
      refine ⟨List.forall_mem_cons.2 ⟨hasStringPredicates_of_isString hpredicate, hargs⟩, ?_⟩
      intro a _ hone
      obtain ⟨rfl, -⟩ := List.cons.inj hone
      exact hpredicate
  | var | const | app | rule =>
    rw [hasStringPredicates, haveStringPredicates_iff] at h
    · exact ⟨h, by simp⟩
    · simp

/-- Nothing but a number is in the way of a text if all predicates are strings. -/
theorem isFreeOf_of_hasStringPredicates (h : a.hasStringPredicates = true) :
    a.isFreeOf .notString = true := by
  induction a using induct with
  | list as ih =>
    rw [hasStringPredicates, haveStringPredicates_iff] at h
    exact isFreeOf_list_iff.2 fun a ha => ih a ha (h a ha)
  | tuple as ih =>
    rw [hasStringPredicates, haveStringPredicates_iff] at h
    exact isFreeOf_tuple_iff.2 fun a ha => ih a ha (h a ha)
  | object fs ih =>
    rw [hasStringPredicates, fieldsHaveStringPredicates_iff] at h
    exact isFreeOf_object_iff.2 fun f hf => ⟨(ih f hf).1 (h f hf).1, (ih f hf).2 (h f hf).2⟩
  | quoted shape parts ih =>
    obtain ⟨hparts, hliteral⟩ := hasStringPredicates_parts h
    exact isFreeOf_quoted (fun a ha => ih a ha (hparts a ha)) hliteral
  | null | bool | int | float | str => exact isFreeOf_of_isPlain rfl

end Value

/-! ### Calls -/

namespace Item

/-- The item is a literal without variables. -/
def IsGroundLiteral (i : Item) : Prop := ∃ l, i = .literal l ∧ l.occurrences = []

/-- The item as a fact. -/
def fact? : Item → Option Literal
  | .literal l => if l.occurrences.isEmpty then some l else none
  | _ => none

/-- The item as a rule. -/
def rule? : Item → Option Rule
  | .rule r => some r
  | _ => none

/-- The fault that an item is refused with.  It says that the item is no literal, or that it has
variables, and shows the item; if a number in the item is too long to be written, it says
only that. -/
inductive IsRefusedBy : Item → Fault → Prop where
  | notLiteral {i : Item} {text : String} :
      (∀ l, i ≠ .literal l) → i.text? = .ok text → IsRefusedBy i (.factNotLiteral text)
  | notGround {l : Literal} {text : String} :
      l.occurrences ≠ [] → l.text? = .ok text → IsRefusedBy (.literal l) (.factNotGround text)
  | tooLong {i : Item} :
      ¬ i.IsGroundLiteral → i.text? = .error .tooLong → IsRefusedBy i (.numeral .tooLong)

theorem fact?_eq_some_iff {i : Item} {l : Literal} :
    i.fact? = some l ↔ i = .literal l ∧ l.occurrences = [] := by
  cases i with
  | literal m =>
    simp only [fact?, List.isEmpty_iff, Option.ite_none_right_eq_some, Option.some.injEq,
      literal.injEq]
    constructor
    · rintro ⟨hm, rfl⟩
      exact ⟨rfl, hm⟩
    · rintro ⟨rfl, hm⟩
      exact ⟨hm, rfl⟩
  | _ => simp [fact?]

theorem fact?_eq_none_iff {i : Item} : i.fact? = none ↔ ¬ i.IsGroundLiteral := by
  simp only [Option.eq_none_iff_forall_ne_some, ne_eq, fact?_eq_some_iff, IsGroundLiteral,
    not_exists]

theorem rule?_eq_some_iff {i : Item} {r : Rule} : i.rule? = some r ↔ i = .rule r := by
  cases i <;> simp [rule?]

end Item

/-- A call that adds to a knowledge base: with a fact, with a head and a body, or with a
clause. -/
inductive Addition where
  | fact (i : Item)
  | rule (head : Literal) (body : List Literal)
  | clause (i : Item)

namespace Addition

/-- What is handed over. -/
def item : Addition → Item
  | .fact i | .clause i => i
  | .rule head body => .rule ⟨head, body⟩

/-- The call itself. -/
def call : Addition → Storing Unit
  | .fact i => Storing.fact i
  | .rule head body => Storing.rule ⟨head, body⟩
  | .clause i => Storing.clause i

/-- How the call ends on a knowledge base, and the knowledge base that it leaves. -/
def perform (kb : KnowledgeBase) (added : Addition) : Checked Unit × KnowledgeBase :=
  added.call.perform kb

/-- The fact that the call is to add. -/
def fact? : Addition → Option Literal
  | .fact i | .clause i => i.fact?
  | .rule _ _ => none

/-- The rule that the call is to add. -/
def rule? : Addition → Option Rule
  | .fact _ => none
  | .rule head body => some ⟨head, body⟩
  | .clause i => i.rule?

/-- The clause that the call is to add. -/
def clause? (call : Addition) : Option Clause :=
  call.fact?.map .fact <|> call.rule?.map .rule

/-- What is handed over as a fact is no ground literal, or what is handed over as a clause is no
rule either. -/
def IsImproper : Addition → Prop
  | .fact i => ¬ i.IsGroundLiteral
  | .rule _ _ => False
  | .clause i => ¬ (∃ r, i = .rule r) ∧ ¬ i.IsGroundLiteral

/-- The predicates of the literals that are handed over are strings, at any depth. -/
def HasStringPredicates (call : Addition) : Prop := call.item.toValue.hasStringPredicates = true

/-- The calls that make a knowledge base of some facts and then some clauses. -/
def ofArguments (facts clauses : List Item) : List Addition :=
  facts.map .fact ++ clauses.map .clause

end Addition

namespace KnowledgeBase

variable {kb : KnowledgeBase} {facts clauses : List Item} {calls : List Addition}
  {call : Addition}

/-- The knowledge base after some calls. -/
def afterCalls (kb : KnowledgeBase) (calls : List Addition) : KnowledgeBase :=
  calls.foldl (fun kb call => (call.perform kb).2) kb

/-- The knowledge base holds just what the calls were to add. -/
structure Holds (kb : KnowledgeBase) (calls : List Addition) : Prop where
  /-- Clauses stand in the order of the calls, each as often as it was added. -/
  clauses : kb.clauses = calls.filterMap Addition.clause?
  facts : kb.facts = calls.filterMap Addition.fact?
  rules : kb.rules = calls.filterMap Addition.rule?
  /-- The lists of facts and of rules are the two parts of the list of clauses. -/
  parts : kb.facts = kb.clauses.filterMap Clause.fact? ∧
    kb.rules = kb.clauses.filterMap Clause.rule?
  /-- Each clause is counted once. -/
  size : kb.size = kb.factCount + kb.ruleCount
  /-- No variable occurs in a fact. -/
  ground : ∀ l ∈ kb.facts, l.occurrences = [] ∧ (Item.literal l).freeVariables = .ok []

/-- A knowledge base is made of the arguments unless one of them is improper. -/
structure IsMadeOf (facts clauses : List Item) (result : Checked KnowledgeBase) : Prop where
  made_iff : (∃ kb, result = .ok kb) ↔
    ∀ call ∈ Addition.ofArguments facts clauses, ¬ call.IsImproper
  /-- The fault is the one of an improper argument. -/
  fault : ∀ fault, result = .error fault → ∃ call ∈ Addition.ofArguments facts clauses,
    call.IsImproper ∧ call.item.IsRefusedBy fault

end KnowledgeBase

/-- How a call ends. -/
structure Addition.Outcome (kb : KnowledgeBase) (call : Addition) : Prop where
  refused_iff : (∃ fault, (call.perform kb).1 = .error fault) ↔ call.IsImproper
  /-- There is no other fault than that of a refused item. -/
  fault : ∀ fault, (call.perform kb).1 = .error fault → call.item.IsRefusedBy fault
  /-- Facts, rules and clauses are left as they were if the call is refused. -/
  unchanged : ∀ fault, (call.perform kb).1 = .error fault →
    (call.perform kb).2.facts = kb.facts ∧ (call.perform kb).2.rules = kb.rules ∧
      (call.perform kb).2.clauses = kb.clauses

/-! ### One call -/

/-- The fault that a fact is refused with. -/
theorem Item.isRefusedBy_refusal {i : Item} (hi : ¬ i.IsGroundLiteral)
    (hstrings : i.toValue.hasStringPredicates = true) : i.IsRefusedBy (Storing.refusal i) := by
  have htooLong : FailsWith (· = .tooLong) i.text? :=
    Value.failsWith_tooLong (Value.isFreeOf_of_hasStringPredicates hstrings)
  rw [Storing.refusal]
  rcases htext : i.text? with flaw | text
  · obtain rfl := htooLong flaw htext
    exact .tooLong hi htext
  · cases i with
    | literal l => exact .notGround (fun hl => hi ⟨l, rfl, hl⟩) htext
    | term | rule | list | tuple | raw => exact .notLiteral (by simp) htext

/-- **Adding a fact**: a ground literal is appended, and everything else is refused. -/
theorem Storing.perform_fact_cases (kb : KnowledgeBase) (i : Item) :
    (∃ l, i.fact? = some l ∧ (fact i).perform kb = (.ok (), kb.push (.fact l))) ∨
      (¬ i.IsGroundLiteral ∧ ∃ fault, (fact i).perform kb = (.error fault, kb) ∧
        (i.toValue.hasStringPredicates = true → i.IsRefusedBy fault)) := by
  rcases h : i.fact? with - | l
  · have hi := Item.fact?_eq_none_iff.1 h
    have hground : ∀ l, i = .literal l → l.isGround = false := by
      rintro l rfl
      exact Bool.eq_false_iff.2 fun hl => hi ⟨l, rfl, Literal.isGround_iff.1 hl⟩
    exact .inr ⟨hi, _, perform_fact_refused kb hground, Item.isRefusedBy_refusal hi⟩
  · obtain ⟨rfl, hl⟩ := Item.fact?_eq_some_iff.1 h
    exact .inl ⟨l, rfl, perform_fact kb (Literal.isGround_iff.2 hl)⟩

namespace Addition

variable {call : Addition} {kb : KnowledgeBase} {l : Literal} {r : Rule}
  {fault : Fault}

theorem clause?_eq_fact (h : call.fact? = some l) : call.clause? = some (.fact l) := by
  rw [clause?, h]
  rfl

theorem clause?_eq_rule (hfact : call.fact? = none) (h : call.rule? = some r) :
    call.clause? = some (.rule r) := by
  rw [clause?, hfact, h]
  rfl

theorem clause?_eq_none (hfact : call.fact? = none) (h : call.rule? = none) :
    call.clause? = none := by
  rw [clause?, hfact, h]
  rfl

theorem occurrences_of_fact? (h : call.fact? = some l) : l.occurrences = [] := by
  cases call with
  | rule => cases h
  | fact | clause => exact (Item.fact?_eq_some_iff.1 h).2

/-- An item that is a fact is no rule. -/
theorem rule?_of_fact? (h : call.fact? = some l) : call.rule? = none := by
  cases call with
  | rule => cases h
  | fact => rfl
  | clause i =>
    obtain ⟨rfl, -⟩ := Item.fact?_eq_some_iff.1 h
    rfl

theorem clause?_parts : call.clause?.bind Clause.fact? = call.fact? ∧
    call.clause?.bind Clause.rule? = call.rule? := by
  rcases hfact : call.fact? with - | l
  · rcases hrule : call.rule? with - | r
    · rw [clause?_eq_none hfact hrule]
      exact ⟨rfl, rfl⟩
    · rw [clause?_eq_rule hfact hrule]
      exact ⟨rfl, rfl⟩
  · rw [clause?_eq_fact hfact, rule?_of_fact? hfact]
    exact ⟨rfl, rfl⟩

/-- **A call** appends its clause, or it is improper and leaves the lists as they are. -/
theorem perform_cases (kb : KnowledgeBase) (call : Addition) :
    (¬ call.IsImproper ∧ ∃ c, call.clause? = some c ∧ call.perform kb = (.ok (), kb.push c)) ∨
    (call.IsImproper ∧ call.clause? = none ∧ ∃ fault, call.perform kb = (.error fault, kb) ∧
      (call.HasStringPredicates → call.item.IsRefusedBy fault)) := by
  cases call with
  | rule head body => exact .inl ⟨id, _, rfl, rfl⟩
  | fact i =>
    rcases Storing.perform_fact_cases kb i with ⟨l, hl, h⟩ | ⟨hi, h⟩
    · have hground := Item.fact?_eq_some_iff.1 hl
      exact .inl ⟨fun himproper => himproper ⟨l, hground⟩, _, clause?_eq_fact hl, h⟩
    · exact .inr ⟨hi, clause?_eq_none (Item.fact?_eq_none_iff.2 hi) rfl, h⟩
  | clause i =>
    rcases hrule : i.rule? with - | r
    · have hnot : ∀ r, i ≠ .rule r := by
        intro r hr
        rw [Item.rule?_eq_some_iff.2 hr] at hrule
        cases hrule
      have hcall : (Addition.clause i).perform kb = (Storing.fact i).perform kb := by
        rw [perform, call, Storing.clause_eq_fact hnot]
      rw [hcall]
      rcases Storing.perform_fact_cases kb i with ⟨l, hl, h⟩ | ⟨hi, h⟩
      · have hground := Item.fact?_eq_some_iff.1 hl
        exact .inl ⟨fun himproper => himproper.2 ⟨l, hground⟩, _, clause?_eq_fact hl, h⟩
      · exact .inr ⟨⟨fun ⟨r, hr⟩ => hnot r hr, hi⟩,
          clause?_eq_none (Item.fact?_eq_none_iff.2 hi) hrule, h⟩
    · obtain rfl := Item.rule?_eq_some_iff.1 hrule
      exact .inl ⟨fun himproper => himproper.1 ⟨r, rfl⟩, _, rfl, rfl⟩

/-- The lists after a call. -/
theorem snd_perform : (call.perform kb).2 = kb.pushAll call.clause?.toList := by
  rcases perform_cases kb call with ⟨-, c, hc, h⟩ | ⟨-, hnone, fault, h, -⟩
  · rw [h, hc]
    rfl
  · rw [h, hnone]
    rfl

/-- **The outcome of a call**, whatever the knowledge base holds. -/
theorem outcome (hstrings : call.HasStringPredicates) : call.Outcome kb := by
  rcases perform_cases kb call with ⟨hproper, c, -, h⟩ | ⟨himproper, -, fault, h, hfault⟩
  · have hne : ∀ fault, (call.perform kb).1 ≠ .error fault := by simp [h]
    constructor
    case refused_iff =>
      exact ⟨fun ⟨fault, hfault⟩ => absurd hfault (hne fault), fun hi => absurd hi hproper⟩
    case fault => exact fun fault hfault => absurd hfault (hne fault)
    case unchanged => exact fun fault hfault => absurd hfault (hne fault)
  · constructor
    case refused_iff => exact ⟨fun _ => himproper, fun _ => ⟨fault, by rw [h]⟩⟩
    case fault =>
      intro fault' hfault'
      rw [h] at hfault'
      obtain rfl := Except.error.inj hfault'
      exact hfault hstrings
    case unchanged =>
      rw [h]
      exact fun _ _ => ⟨rfl, rfl, rfl⟩

end Addition

/-! ### Any calls -/

namespace KnowledgeBase

variable {kb : KnowledgeBase} {calls : List Addition} {facts clauses : List Item}

/-- Calls add what they are to add, one after the other. -/
theorem afterCalls_eq (kb : KnowledgeBase) (calls : List Addition) :
    kb.afterCalls calls = kb.pushAll (calls.filterMap Addition.clause?) := by
  induction calls generalizing kb with
  | nil => rfl
  | cons call calls ih =>
    have hnext : kb.afterCalls (call :: calls) = (call.perform kb).2.afterCalls calls := rfl
    rw [hnext, ih, Addition.snd_perform, ← pushAll_append, List.filterMap_cons]
    cases call.clause? <;> rfl

/-- Facts and rules are as many as clauses. -/
theorem length_parts (cs : List Clause) :
    cs.length = (cs.filterMap Clause.fact?).length + (cs.filterMap Clause.rule?).length := by
  induction cs with
  | nil => rfl
  | cons c cs ih =>
    cases c with
    | fact | rule =>
      simp only [List.filterMap_cons, Clause.fact?, Clause.rule?, List.length_cons]
      omega

/-- **The store invariant**: the three lists are in step after any calls. -/
theorem holds_afterCalls (calls : List Addition) : (empty.afterCalls calls).Holds calls := by
  have hfacts : (calls.filterMap Addition.clause?).filterMap Clause.fact? =
      calls.filterMap Addition.fact? := by
    rw [List.filterMap_filterMap]
    exact List.filterMap_congr fun call _ => Addition.clause?_parts.1
  have hrules : (calls.filterMap Addition.clause?).filterMap Clause.rule? =
      calls.filterMap Addition.rule? := by
    rw [List.filterMap_filterMap]
    exact List.filterMap_congr fun call _ => Addition.clause?_parts.2
  rw [afterCalls_eq]
  constructor
  case clauses => exact clauses_pushAll
  case facts => rw [facts_pushAll, hfacts]; rfl
  case rules => rw [rules_pushAll, hrules]; rfl
  case parts =>
    rw [facts_pushAll, rules_pushAll, clauses_pushAll]
    exact ⟨rfl, rfl⟩
  case size =>
    rw [size, factCount, ruleCount, facts_pushAll, rules_pushAll, clauses_pushAll]
    exact length_parts _
  case ground =>
    intro l hl
    rw [facts_pushAll, hfacts] at hl
    obtain ⟨call, -, hl⟩ := List.mem_filterMap.1 hl
    have hground := Addition.occurrences_of_fact? hl
    refine ⟨hground, ?_⟩
    simp [Item.freeVariables, Item.occurrences?, Item.checkedVariables, hground,
      Variable.distinct]

/-- The arguments of a knowledge base are added call by call. -/
theorem ofClauses_eq (facts clauses : List Item) : ofClauses facts clauses =
    (Addition.ofArguments facts clauses).foldlM (fun kb call => kb.after call.call) empty := by
  rw [Addition.ofArguments, List.foldlM_append, List.foldlM_map]
  simp only [List.foldlM_map]
  rfl

/-- Calls are all accepted, or one of them is the first that is refused. -/
theorem foldlM_after_cases (kb : KnowledgeBase) (calls : List Addition) :
    ((∀ call ∈ calls, ¬ call.IsImproper) ∧
      calls.foldlM (fun kb call => kb.after call.call) kb = .ok (kb.afterCalls calls)) ∨
    ∃ call ∈ calls, call.IsImproper ∧ ∃ fault,
      calls.foldlM (fun kb call => kb.after call.call) kb = .error fault ∧
      (call.HasStringPredicates → call.item.IsRefusedBy fault) := by
  induction calls generalizing kb with
  | nil => exact .inl ⟨by simp, rfl⟩
  | cons call calls ih =>
    have hafter : kb.after call.call =
        (call.perform kb).1.map fun _ => (call.perform kb).2 := rfl
    rw [List.foldlM_cons]
    rcases Addition.perform_cases kb call with ⟨hproper, c, -, h⟩ | ⟨himproper, -, fault, h, hfault⟩
    · have hok : kb.after call.call = .ok (kb.push c) := by rw [hafter, h]; rfl
      have hnext : kb.afterCalls (call :: calls) = (kb.push c).afterCalls calls := by
        rw [afterCalls, List.foldl_cons, h]
        rfl
      rw [hok, ok_bind, hnext]
      rcases ih (kb.push c) with ⟨hall, hrun⟩ | ⟨call', hmem, hrest⟩
      · exact .inl ⟨List.forall_mem_cons.2 ⟨hproper, hall⟩, hrun⟩
      · exact .inr ⟨call', List.mem_cons_of_mem _ hmem, hrest⟩
    · have herror : kb.after call.call = .error fault := by rw [hafter, h]; rfl
      refine .inr ⟨call, List.mem_cons_self, himproper, fault, ?_, hfault⟩
      rw [herror]
      rfl

/-- **Making a knowledge base** succeeds unless an argument is improper. -/
theorem isMadeOf (h : ∀ call ∈ Addition.ofArguments facts clauses, call.HasStringPredicates) :
    IsMadeOf facts clauses (ofClauses facts clauses) := by
  rw [ofClauses_eq]
  rcases foldlM_after_cases empty (Addition.ofArguments facts clauses) with
    ⟨hall, hrun⟩ | ⟨call, hmem, himproper, fault, hrun, hfault⟩
  · rw [hrun]
    exact ⟨⟨fun _ => hall, fun _ => ⟨_, rfl⟩⟩, fun _ hfault => nomatch hfault⟩
  · rw [hrun]
    constructor
    case made_iff =>
      exact ⟨fun ⟨_, hkb⟩ => (nomatch hkb), fun hall => absurd himproper (hall call hmem)⟩
    case fault =>
      rintro _ ⟨⟩
      exact ⟨call, hmem, himproper, hfault (h call hmem)⟩

theorem eq_afterCalls_of_ofClauses (h : ofClauses facts clauses = .ok kb) :
    kb = empty.afterCalls (Addition.ofArguments facts clauses) := by
  rw [ofClauses_eq] at h
  rcases foldlM_after_cases empty (Addition.ofArguments facts clauses) with
    ⟨-, hrun⟩ | ⟨-, -, -, fault, hrun, -⟩
  · exact Except.ok.inj (h.symm.trans hrun)
  · cases h.symm.trans hrun

theorem afterCalls_append (kb : KnowledgeBase) (calls more : List Addition) :
    kb.afterCalls (calls ++ more) = (kb.afterCalls calls).afterCalls more :=
  List.foldl_append

end KnowledgeBase

open KnowledgeBase in
/-- **A knowledge base holds what it was made of and what was added since**, in that order and
nothing else, and the next call is refused just if it is improper. -/
theorem stores_additions {facts clauses : List Item} {call : Addition}
    (hmade : ∀ c ∈ Addition.ofArguments facts clauses, c.HasStringPredicates)
    (hcall : call.HasStringPredicates) (calls : List Addition) :
    IsMadeOf facts clauses (ofClauses facts clauses) ∧
      ∀ kb, ofClauses facts clauses = .ok kb →
        (kb.afterCalls calls).Holds (Addition.ofArguments facts clauses ++ calls) ∧
          call.Outcome (kb.afterCalls calls) := by
  refine ⟨isMadeOf hmade, fun kb hkb => ⟨?_, Addition.outcome hcall⟩⟩
  rw [eq_afterCalls_of_ofClauses hkb, ← afterCalls_append]
  exact holds_afterCalls _

open KnowledgeBase in
/-- Two of these calls are refused, one for a variable inside a function term and one for a
plain value; the fact that is added a second time stands there twice. -/
theorem additions_refused :
    let fact : Literal := ⟨.str "p", [.app (.str "f") [.const (.int 1)]]⟩
    let pattern : Literal := ⟨.str "p", [.app (.str "f") [.var (.named "X")]]⟩
    let rule : Rule := ⟨⟨.str "q", [.var (.named "X")]⟩, [pattern]⟩
    let calls : List Addition := [.clause (.literal pattern), .rule rule.head rule.body,
      .fact (.raw (.int 1)), .clause (.literal fact)]
    let call : Addition := .fact (.rule rule)
    (∀ c ∈ Addition.ofArguments [.literal fact] [.rule rule], c.HasStringPredicates) ∧
      call.HasStringPredicates ∧
      ∃ kb, ofClauses [.literal fact] [.rule rule] = .ok kb ∧
        (kb.afterCalls calls).clauses = [.fact fact, .rule rule, .rule rule, .fact fact] ∧
        (kb.afterCalls calls).facts = [fact, fact] ∧ (kb.afterCalls calls).size = 4 ∧
        ∃ fault, (call.perform (kb.afterCalls calls)).1 = .error fault ∧
          (Item.rule rule).IsRefusedBy fault := by
  intro fact pattern rule calls call
  have hmade : ∀ c ∈ Addition.ofArguments [.literal fact] [.rule rule],
      c.HasStringPredicates := by
    intro c hc
    rcases List.mem_cons.1 hc with rfl | hc
    · rfl
    · obtain rfl := List.mem_singleton.1 hc
      rfl
  have hcall : call.HasStringPredicates := rfl
  have hkb : ofClauses [.literal fact] [.rule rule] = .ok (ofParts [fact] [rule]) := rfl
  obtain ⟨-, hstores⟩ := stores_additions hmade hcall calls
  obtain ⟨hholds, houtcome⟩ := hstores _ hkb
  obtain ⟨fault, hfault⟩ := houtcome.refused_iff.2 (by rintro ⟨l, hl, -⟩; cases hl)
  exact ⟨hmade, hcall, _, hkb, hholds.clauses, hholds.facts, hholds.size, fault, hfault,
    houtcome.fault fault hfault⟩

open KnowledgeBase in
/-- A literal with a variable, and with a number that is too long to be written.  It is refused as
it should be, and adds nothing, but not by the fault of a fact that is not ground. -/
theorem refused_for_number :
    let pattern : Literal := ⟨.str "p", [.var (.named "X"), .const (.int Numeral.huge)]⟩
    let call : Addition := .fact (.literal pattern)
    call.HasStringPredicates ∧ call.IsImproper ∧
      call.perform empty = (.error (.numeral .tooLong), empty) := by
  intro pattern call
  have hground : ∀ l, Item.literal pattern = .literal l → l.isGround = false := by
    rintro l ⟨⟩
    rfl
  refine ⟨rfl, ?_, ?_⟩
  · rintro ⟨l, hl, hvars⟩
    obtain rfl := Item.literal.inj hl
    cases hvars
  · have htext : (Item.literal pattern).text? = .error .tooLong := by
      have hzero : Numeral.isWritten 0 = true := rfl
      have hflaws : pattern.toValue.flaws = [.tooLong] := by
        simp [pattern, Literal.toValue, Term.toValues, Term.toValue, Value.flaws,
          Value.flawsHeadLast, Value.flawsOfAll, Variable.named, Variable.toValue, hzero,
          Numeral.isWritten_huge]
      rw [Item.text?, Value.text?, Value.shownAs, Item.toValue, hflaws]
    show (Storing.fact (.literal pattern)).perform empty = _
    rw [Storing.perform_fact_refused empty hground, Storing.refusal, htext]
    rfl

end HornSearch
