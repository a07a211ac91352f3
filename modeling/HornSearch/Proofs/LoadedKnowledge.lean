/-
HornSearch/Proofs/LoadedKnowledge.lean

Asking a knowledge base that was read from a document.  A document of JSON cannot bring in a
symbol that unification, hashing or printing would stumble over: what it says is plain, and a
plain symbol may be compared, and shown unless a number in it is too long
(`KnowledgeBase.meets_of_ofDocument`).

What it can bring in are names, serials, functors and predicates of another type than they are
declared with, since reading copies them as they are (`Criterion.typed` says what is declared).
Where they have their types, a bounded search over the knowledge base ends in a tree or at the
depth limit (`prove_loaded`).  Where they have not, it may be stopped by a fault that reading
was to find: a serial that is a string is refused only when a rule is copied
(`stopped_by_serial`).
-/
import HornSearch.Proofs.BoundedSearch
import HornSearch.Proofs.DocumentGrammar

namespace HornSearch

open Resolver

variable {kb : KnowledgeBase} {settings : Settings} {query : Item} {goals : List Literal}
variable {trail : Trail} {doc : Value} {n : Int} {N : Nat} {p q : Criterion} {long : Bool}

/-! ### Two criteria at once -/

/-- What is asked by both criteria. -/
def Criterion.inter (p q : Criterion) : Criterion :=
  ⟨fun v => p.var v && q.var v, fun a => p.symbol a && q.symbol a, fun f => p.label f && q.label f⟩

theorem Term.meets_inter {t : Term} (hp : t.meets p = true) (hq : t.meets q = true) :
    t.meets (p.inter q) = true := by
  induction t using induct with
  | var v => exact Bool.and_eq_true_iff.2 ⟨hp, hq⟩
  | const a => exact Bool.and_eq_true_iff.2 ⟨hp, hq⟩
  | app f ts ih =>
    rw [meets_app_iff] at hp hq ⊢
    exact ⟨Bool.and_eq_true_iff.2 ⟨hp.1, hq.1⟩, fun t ht => ih t ht (hp.2 t ht) (hq.2 t ht)⟩

theorem Literal.meets_inter {l : Literal} (hp : l.meets p = true) (hq : l.meets q = true) :
    l.meets (p.inter q) = true :=
  Term.meets_inter hp hq

theorem Rule.meets_inter {r : Rule} (hp : r.meets p = true) (hq : r.meets q = true) :
    r.meets (p.inter q) = true := by
  rw [meets_iff] at hp hq ⊢
  exact ⟨Literal.meets_inter hp.1 hq.1, fun l hl => Literal.meets_inter (hp.2 l hl) (hq.2 l hl)⟩

/-! ### What is read from a document -/

/-- **What a document passes on to its parts** is found throughout the clauses that are read from
it. -/
theorem KnowledgeBase.throughout_of_ofDocument {P : Value → Bool} (hP : Value.IsPassedOn P)
    (hproper : doc.isProper = true) (hdoc : P doc = true) (hkb : ofDocument doc = .ok kb) :
    kb.Meets (.throughout P) := by
  obtain ⟨fields, facts, rules, rfl, htold, rfl⟩ := (ofDocument_eq_ok_iff hproper).1 hkb
  constructor
  · intro l hl
    obtain ⟨vs, hvs, v, hv, hread⟩ := htold.areFacts.exists_of_mem hl
    have hv := hP.clauses? hdoc hvs v hv
    exact ⟨Literal.throughout_of_ofDocument hP hv hread, htold.areGround l hl⟩
  · intro r hr
    obtain ⟨vs, hvs, v, hv, hread⟩ := htold.areRules.exists_of_mem hr
    exact Rule.throughout_of_ofDocument hP (hP.clauses? hdoc hvs v hv) hread

/-! ### The declared types -/

/-- Names are strings, serials whole numbers, functors and predicates strings. -/
def Criterion.typed : Criterion := ⟨Variable.isRegular, fun _ => true, Value.isString⟩

/-- All facts and rules have the declared types. -/
structure KnowledgeBase.IsTyped (kb : KnowledgeBase) : Prop where
  facts : ∀ l ∈ kb.facts, l.meets .typed = true
  rules : ∀ r ∈ kb.rules, r.meets .typed = true

/-- Of the declared types, and from a value of JSON, in which numbers that are too long come up
only if `long` is set. -/
def Criterion.read (long : Bool) : Criterion := (throughout (Value.isSource long)).inter typed

/-- **What is read from JSON** where it has the declared types. -/
theorem KnowledgeBase.meets_of_ofDocument (hdoc : doc.isSource long = true)
    (hkb : ofDocument doc = .ok kb) (htyped : kb.IsTyped) : kb.Meets (.read long) := by
  have hproper := Value.isProper_of_isJson (Bool.and_eq_true_iff.1 hdoc).1
  have hmeets := throughout_of_ofDocument (Value.isPassedOn_isSource long) hproper hdoc hkb
  constructor
  · intro l hl
    obtain ⟨hl', hground⟩ := hmeets.facts l hl
    exact ⟨Literal.meets_inter hl' (htyped.facts l hl), hground⟩
  · exact fun r hr => Rule.meets_inter (hmeets.rules r hr) (htyped.rules r hr)

/-- It is legible. -/
theorem Criterion.read_implies_legible (long : Bool) : (read long).Implies legible where
  var _ h := (Bool.and_eq_true_iff.1 h).2
  symbol a h := by
    obtain ⟨hsource, -⟩ := Bool.and_eq_true_iff.1 h
    obtain ⟨hjson, -⟩ := Bool.and_eq_true_iff.1 hsource
    exact Bool.and_eq_true_iff.2
      ⟨Value.isProper_of_isJson hjson, Value.isFreeOf_of_isPlain (Value.isPlain_of_isJson hjson)⟩
  label _ h := (Bool.and_eq_true_iff.1 h).2

/-- It is shown, if no number is too long. -/
theorem Criterion.read_implies_shown : (read false).Implies shown where
  var v h := by
    obtain ⟨hsource, hregular⟩ := Bool.and_eq_true_iff.1 h
    obtain ⟨-, hserial⟩ := Bool.and_eq_true_iff.1 hsource
    exact Bool.and_eq_true_iff.2 ⟨hregular, Value.hasText_of_isSource hserial⟩
  symbol a h := by
    obtain ⟨hsource, -⟩ := Bool.and_eq_true_iff.1 h
    obtain ⟨hjson, -⟩ := Bool.and_eq_true_iff.1 hsource
    exact Bool.and_eq_true_iff.2 ⟨Value.isProper_of_isJson hjson, Value.hasText_of_isSource hsource⟩
  label _ h := (Bool.and_eq_true_iff.1 h).2

/-! ### The search -/

/-- Nothing that a search starts from is too long to be written: not the document, the goals or
the limit, and not the serials from `n` on up to `m`. -/
structure IsWritten (doc : Value) (goals : List Literal) (N : Nat) (n m : Int) : Prop where
  document : doc.hasText = true
  goals : ∀ g ∈ goals, g.meets .shown = true
  limit : (Value.int N).hasText = true
  first : 0 ≤ n
  last : m ≤ 10 ^ Numeral.mostDigits

/-- **A knowledge base that was read is safe to ask** where names, serials, functors and
predicates have their types: a bounded search ends in a tree or at the depth limit, whatever
else the document says.  What the limit stops it by is its own fault, unless something is too
long to be written. -/
theorem prove_loaded (hdoc : doc.isJson = true) (hkb : KnowledgeBase.ofDocument doc = .ok kb)
    (htyped : kb.IsTyped) (hquery : goalsOf query = .ok (goals.map .literal))
    (hgoals : ∀ g ∈ goals, g.meets .legible = true) (htrail : trail.source = ⟨.int n⟩)
    (hN : settings.maxDepth = some N) :
    ∃ r, Ends kb settings query .empty trail r ∧
      (∀ levels, N < levels → prove kb settings levels query .empty trail = r) ∧
      ((∃ tree, r.1 = .proved tree) ∨ ∃ l, StoppedAt N l r.1) ∧
      ∀ m, r.2.source = ⟨.int m⟩ → IsWritten doc goals N n m →
        (∃ tree, r.1 = .proved tree) ∨ ∃ l, r.1 = .stopped (.depthLimit N l) := by
  have hlegible : kb.Meets .legible :=
    (KnowledgeBase.meets_of_ofDocument (Value.isSource_of_isJson hdoc) hkb htyped).mono
      (Criterion.read_implies_legible true)
  have hposed : WellPosed kb query goals .empty :=
    ⟨hlegible, hquery, hgoals, Bindings.meets_empty, Bindings.acyclic_empty⟩
  obtain ⟨r, hends, hresult, hnesting⟩ := exists_bounded hposed htrail hN
  refine ⟨r, hends, hnesting, hresult, fun m hm hwritten => hresult.imp_right ?_⟩
  rintro ⟨l, hl⟩
  obtain rfl := hnesting (N + 1) (Nat.lt_succ_self N)
  have hshown : kb.Meets .shown :=
    (KnowledgeBase.meets_of_ofDocument (Value.isSource_of_hasText hdoc hwritten.document) hkb
      htyped).mono Criterion.read_implies_shown
  have hprinted : IsPrinted kb goals .empty n m :=
    ⟨hshown, hwritten.goals, Bindings.meets_empty, hwritten.first, hwritten.last⟩
  exact ⟨l, depthLimit_of_isPrinted Bindings.acyclic_empty hquery htrail hN hm hwritten.limit
    hprinted hl⟩

namespace Sheet

/-- The document of a literal about one term. -/
def about (predicate : String) (t : Value) : Value :=
  .record [("predicate", .str predicate), ("args", .list [t])]

/-- The document of a variable with a serial. -/
def blank (serial : Value) : Value :=
  .record [("type", .str "var"), ("name", .str "X"), ("serial", serial)]

/-- The document of the fact `q(a)` and of a rule by which `q` implies `p`, whose variable has
a serial. -/
def document (serial : Value) : Value := .record [
  ("facts", .list [about "q" (.record [("type", .str "const"), ("symbol", .str "a")])]),
  ("rules", .list [.record [("consequent", about "p" (blank serial)),
    ("antecedents", .list [about "q" (blank serial)])]])]

/-- What is read from it. -/
def clauses (serial : Value) : KnowledgeBase :=
  .ofParts [⟨.str "q", [.const (.str "a")]⟩]
    [⟨⟨.str "p", [.var ⟨.str "X", serial⟩]⟩, [⟨.str "q", [.var ⟨.str "X", serial⟩]⟩]⟩]

/-- What is there by the rule? -/
def question : Literal := ⟨.str "p", [.var (.named "Y")]⟩

theorem ofDocument_document (serial : Value) :
    KnowledgeBase.ofDocument (document serial) = .ok (clauses serial) := rfl

end Sheet

open Sheet in
/-- With a whole number for a serial the rule gives an answer. -/
theorem loaded_sheet :
    (document (.int 1)).isJson = true ∧ (clauses (.int 1)).IsTyped ∧
      ∃ r tree, Ends (clauses (.int 1)) { maxDepth := some 3 } (.literal question) .empty
        { source := ⟨.int 1⟩ } r ∧ r.1 = .proved tree ∧ tree.isValid = true := by
  let settings : Settings := { maxDepth := some 3 }
  let trail : Trail := { source := ⟨.int 1⟩ }
  have hjson : (document (.int 1)).isJson = true := by decide
  have htyped : (clauses (.int 1)).IsTyped := ⟨by decide, by decide⟩
  have hquery : goalsOf (.literal question) = .ok ([question].map .literal) := rfl
  have hgoals : ∀ g ∈ [question], g.meets .legible = true := by decide
  have htrail : trail.source = ⟨.int 1⟩ := rfl
  have hlimit : settings.maxDepth = some 3 := rfl
  obtain ⟨r, hends, hlevels, -⟩ := prove_loaded hjson (ofDocument_document _) htyped hquery
    hgoals htrail hlimit
  obtain ⟨tree, trail', hprove, hvalid⟩ : ∃ tree trail', prove (clauses (.int 1)) settings 4
      (.literal question) .empty trail = (.proved tree, trail') ∧ tree.isValid = true :=
    ⟨_, _, by cbv, by cbv⟩
  obtain rfl := (hlevels 4 (by decide)).symm.trans hprove
  exact ⟨hjson, htyped, _, tree, hends, rfl, hvalid⟩

open Sheet in
/-- With a string for a serial the document is read all the same, and the fault comes up in the
middle of the search: where the rule is copied, the serial is compared with a number. -/
theorem stopped_by_serial :
    (document (.str "1")).isJson = true ∧
      KnowledgeBase.ofDocument (document (.str "1")) = .ok (clauses (.str "1")) ∧
      question.meets .legible = true ∧
      Ends (clauses (.str "1")) { maxDepth := some 3 } (.literal question) .empty
        { source := ⟨.int 1⟩ } (.stopped .wrongKind, { source := ⟨.int 1⟩ }) := by
  refine ⟨by decide, ofDocument_document _, by decide, 4, ?_, by simp⟩
  cbv

end HornSearch
