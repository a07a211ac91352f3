/-
HornSearch/Proofs/Documents.lean

What is read from a document.  Reading is a walk that stops at the first thing amiss; here it
is told, for each kind of document, from which fields it succeeds and with what
(`Term.ofDocument_eq_ok_iff` and the lemmas after it, up to
`KnowledgeBase.ofDocument_eq_ok_iff`).  Whatever is said of documents that are accepted
follows from these.

Two readings of a field come up.  A sequence (`elements?`) is absent, a list, or an empty
string or object; the facts and the rules (`clauses?`) are absent, a list, or anything that
counts as false.
-/
import HornSearch.KnowledgeBase.Document
import HornSearch.Proofs.Instantiation
import HornSearch.Proofs.StoreCalls
import HornSearch.Proofs.ValueEquality

namespace HornSearch

variable {v : Value} {fields : List (Value × Value)} {name : String}

/-! ### Fields -/

namespace Value

/-- The fields of a record are looked up by their names. -/
theorem field?_record (named : List (String × Value)) :
    field? name (named.map fun f => (.str f.1, f.2)) = named.lookup name := by
  induction named with
  | nil => rfl
  | cons f named ih =>
    obtain ⟨key, x⟩ := f
    rw [field?, get?] at ih ⊢
    rw [lookup_cons_eq, List.map_cons]
    by_cases h : key = name
    · simp [h, sameKey]
    · have hne : ¬ name = key := fun e => h e.symm
      rw [List.find?_cons_of_neg (by simpa [sameKey] using h), ih, if_neg hne]

/-- The elements of a sequence, which may be absent: a list, or an empty string or object. -/
def elements? : Option Value → Option (List Value)
  | none => some []
  | some (.list vs) => some vs
  | some (.str s) => if s.isEmpty then some [] else none
  | some (.object []) => some []
  | some _ => none

/-- The elements of the list of facts or rules, which may be absent, or anything that counts as
false. -/
def clauses? : Option Value → Option (List Value)
  | none => some []
  | some (.list vs) => some vs
  | some v => if v.isTruthy then none else some []

end Value

/-- There are elements, and they are read one by one. -/
def EachRead {α : Type} (read : Value → Checked α) (elements : Option (List Value))
    (as : List α) : Prop :=
  ∃ vs, elements = some vs ∧ List.Forall₂ (fun v a => read v = .ok a) vs as

theorem requiredField_eq_ok_iff :
    requiredField name fields = .ok v ↔ Value.field? name fields = some v := by
  unfold requiredField
  split <;> simp_all

theorem Variable.ofFields_eq_ok_iff {w : Variable} :
    ofFields fields = .ok w ↔ Value.field? "name" fields = some w.name ∧
      (Value.field? "serial" fields).getD (.int 0) = w.serial := by
  obtain ⟨name, serial⟩ := w
  rw [ofFields, ← requiredField_eq_ok_iff]
  cases requiredField "name" fields <;> simp [Except.map]

/-! ### Terms -/

namespace Term

variable {t : Term} {ts : List Term} {vs : List Value}

theorem argsOfFields_eq : argsOfFields fields = (Value.field? "args" fields).map argsOfValue := by
  induction fields with
  | nil => rfl
  | cons f fields ih =>
    obtain ⟨key, v⟩ := f
    rw [argsOfFields]
    by_cases h : key.sameKey (.str "args") = true
    · rw [if_pos h]
      simp [Value.field?, Value.get?, h]
    · rw [if_neg h, ih]
      simp [Value.field?, Value.get?, h]

theorem ofDocuments_eq : ofDocuments vs = vs.mapM ofDocument := by
  induction vs with
  | nil => rfl
  | cons v vs ih => rw [ofDocuments, ih, List.mapM_cons]

theorem argsOfValue_eq_ok_iff : argsOfValue v = .ok ts ↔
    EachRead ofDocument (Value.elements? (some v)) ts := by
  rw [EachRead]
  cases v with
  | list vs => simp [argsOfValue, Value.elements?, ofDocuments_eq, mapM_eq_ok_iff]
  | str s => by_cases h : s.isEmpty <;> simp [argsOfValue, Value.elements?, h, eq_comm]
  | object fs => cases fs <;> simp [argsOfValue, Value.elements?, eq_comm]
  | _ => simp [argsOfValue, Value.elements?]

theorem argsOfFields_eq_ok_iff :
    (argsOfFields fields).getD (.ok []) = .ok ts ↔
      EachRead ofDocument (Value.elements? (Value.field? "args" fields)) ts := by
  rw [argsOfFields_eq]
  cases Value.field? "args" fields with
  | none => simp [EachRead, Value.elements?, eq_comm]
  | some v => exact argsOfValue_eq_ok_iff

/-- What the fields of a document say of a term: that it is this one. -/
def IsToldBy (fields : List (Value × Value)) : Term → Prop
  | .var w => Value.field? "type" fields = some (.str "var") ∧
      Value.field? "name" fields = some w.name ∧
      (Value.field? "serial" fields).getD (.int 0) = w.serial
  | .const a => Value.field? "type" fields = some (.str "const") ∧
      Value.field? "symbol" fields = some a
  | .app f ts => Value.field? "type" fields = some (.str "func") ∧
      Value.field? "functor" fields = some f ∧
      EachRead ofDocument (Value.elements? (Value.field? "args" fields)) ts

/-- **A document is read as a term** if its fields say so. -/
theorem ofDocument_eq_ok_iff :
    ofDocument v = .ok t ↔ ∃ fields, v = .object fields ∧ t.IsToldBy fields := by
  constructor
  · intro h
    cases v with
    | object fields =>
      refine ⟨fields, rfl, ?_⟩
      rw [ofDocument] at h
      obtain ⟨tag, htag, h⟩ := bind_eq_ok_iff.1 h
      rw [requiredField_eq_ok_iff] at htag
      split at h
      · obtain ⟨w, hw, h⟩ := bind_eq_ok_iff.1 h
        obtain rfl := Except.ok.inj h
        exact ⟨htag, Variable.ofFields_eq_ok_iff.1 hw⟩
      · obtain ⟨a, ha, h⟩ := bind_eq_ok_iff.1 h
        obtain rfl := Except.ok.inj h
        exact ⟨htag, requiredField_eq_ok_iff.1 ha⟩
      · obtain ⟨ts, hts, h⟩ := bind_eq_ok_iff.1 h
        obtain ⟨f, hf, h⟩ := bind_eq_ok_iff.1 h
        obtain rfl := Except.ok.inj h
        exact ⟨htag, requiredField_eq_ok_iff.1 hf, argsOfFields_eq_ok_iff.1 hts⟩
      · obtain ⟨text, -, h⟩ := bind_eq_ok_iff.1 h
        cases h
    | _ => simp [ofDocument] at h
  · rintro ⟨fields, rfl, h⟩
    rw [ofDocument]
    cases t with
    | var w =>
      obtain ⟨htag, hw⟩ := h
      rw [requiredField_eq_ok_iff.2 htag, ok_bind]
      exact bind_eq_ok_iff.2 ⟨w, Variable.ofFields_eq_ok_iff.2 hw, rfl⟩
    | const a =>
      obtain ⟨htag, ha⟩ := h
      rw [requiredField_eq_ok_iff.2 htag, ok_bind]
      exact bind_eq_ok_iff.2 ⟨a, requiredField_eq_ok_iff.2 ha, rfl⟩
    | app f ts =>
      obtain ⟨htag, hf, hts⟩ := h
      rw [requiredField_eq_ok_iff.2 htag, ok_bind]
      refine bind_eq_ok_iff.2 ⟨ts, argsOfFields_eq_ok_iff.2 hts, ?_⟩
      exact bind_eq_ok_iff.2 ⟨f, requiredField_eq_ok_iff.2 hf, rfl⟩

end Term

/-! ### Literals and rules -/

/-- What the fields of a document say of a literal: that it is this one. -/
structure Literal.IsToldBy (fields : List (Value × Value)) (l : Literal) : Prop where
  predicate : Value.field? "predicate" fields = some l.predicate
  args : EachRead Term.ofDocument (Value.elements? (Value.field? "args" fields)) l.args

/-- The arguments of a literal are read before its predicate is asked for. -/
theorem Literal.ofDocument_object : ofDocument (.object fields) =
    ((Term.argsOfFields fields).getD (.ok []) >>= fun args =>
      requiredField "predicate" fields >>= fun p => .ok ⟨p, args⟩) := by
  rw [ofDocument, Term.argsOfFields_eq]
  cases Value.field? "args" fields <;> rfl

/-- **A document is read as a literal** if its fields say so. -/
theorem Literal.ofDocument_eq_ok_iff {l : Literal} :
    ofDocument v = .ok l ↔ ∃ fields, v = .object fields ∧ l.IsToldBy fields := by
  have hfields : ∀ fields, ofDocument (.object fields) = .ok l ↔ l.IsToldBy fields := by
    intro fields
    rw [ofDocument_object, bind_eq_ok_iff]
    constructor
    · rintro ⟨args, hargs, h⟩
      obtain ⟨p, hp, h⟩ := bind_eq_ok_iff.1 h
      obtain rfl := Except.ok.inj h
      exact ⟨requiredField_eq_ok_iff.1 hp, Term.argsOfFields_eq_ok_iff.1 hargs⟩
    · intro h
      refine ⟨l.args, Term.argsOfFields_eq_ok_iff.2 h.args, ?_⟩
      exact bind_eq_ok_iff.2 ⟨l.predicate, requiredField_eq_ok_iff.2 h.predicate, rfl⟩
  cases v with
  | object fields => simp [hfields]
  | _ => simp [ofDocument]

/-- What the fields of a document say of a rule: that it is this one. -/
structure Rule.IsToldBy (fields : List (Value × Value)) (r : Rule) : Prop where
  head : ∃ v, Value.field? "consequent" fields = some v ∧ Literal.ofDocument v = .ok r.head
  body : EachRead Literal.ofDocument (Value.elements? (Value.field? "antecedents" fields)) r.body

theorem literalDocuments_eq_ok_iff {vs : List Value} :
    literalDocuments v = .ok vs ↔ Value.elements? (some v) = some vs := by
  cases v with
  | list us => simp [literalDocuments, Value.elements?]
  | str s => by_cases h : s.isEmpty <;> simp [literalDocuments, Value.elements?, h]
  | object fs => cases fs <;> simp [literalDocuments, Value.elements?]
  | _ => simp [literalDocuments, Value.elements?]

/-- The head of a rule is read before its body. -/
theorem Rule.ofDocument_object : ofDocument (.object fields) =
    (requiredField "consequent" fields >>= fun v => Literal.ofDocument v >>= fun head =>
      (((Value.field? "antecedents" fields).map literalDocuments).getD (.ok []) >>= fun vs =>
        vs.mapM Literal.ofDocument >>= fun body => .ok ⟨head, body⟩)) := by
  rw [ofDocument]
  cases Value.field? "antecedents" fields <;> rfl

/-- **A document is read as a rule** if its fields say so. -/
theorem Rule.ofDocument_eq_ok_iff {r : Rule} :
    ofDocument v = .ok r ↔ ∃ fields, v = .object fields ∧ r.IsToldBy fields := by
  have hfields : ∀ fields, ofDocument (.object fields) = .ok r ↔ r.IsToldBy fields := by
    intro fields
    have hbody : ∀ vs, ((Value.field? "antecedents" fields).map literalDocuments).getD (.ok []) =
        .ok vs ↔ Value.elements? (Value.field? "antecedents" fields) = some vs := by
      intro vs
      cases Value.field? "antecedents" fields with
      | none => simp [Value.elements?]
      | some v => exact literalDocuments_eq_ok_iff
    rw [ofDocument_object, bind_eq_ok_iff]
    constructor
    · rintro ⟨v, hv, h⟩
      obtain ⟨head, hhead, h⟩ := bind_eq_ok_iff.1 h
      obtain ⟨vs, hvs, h⟩ := bind_eq_ok_iff.1 h
      obtain ⟨body, hls, h⟩ := bind_eq_ok_iff.1 h
      obtain rfl := Except.ok.inj h
      exact ⟨⟨v, requiredField_eq_ok_iff.1 hv, hhead⟩, vs, (hbody vs).1 hvs, mapM_eq_ok_iff.1 hls⟩
    · rintro ⟨⟨v, hv, hhead⟩, vs, hvs, hls⟩
      refine ⟨v, requiredField_eq_ok_iff.2 hv, bind_eq_ok_iff.2 ⟨r.head, hhead, ?_⟩⟩
      refine bind_eq_ok_iff.2 ⟨vs, (hbody vs).2 hvs, ?_⟩
      exact bind_eq_ok_iff.2 ⟨r.body, mapM_eq_ok_iff.2 hls, rfl⟩
  cases v with
  | object fields => simp [hfields]
  | _ => simp [ofDocument]

/-! ### Knowledge bases -/

namespace KnowledgeBase

variable {kb kb' : KnowledgeBase} {vs : List Value}

/-- Only a ground literal is added as a fact. -/
theorem addFact_eq_ok_iff {i : Item} : kb.addFact i = .ok kb' ↔
    ∃ l, i = .literal l ∧ l.isGround = true ∧ kb' = kb.push (.fact l) := by
  by_cases h : ∃ l, i = .literal l ∧ l.isGround = true
  · obtain ⟨l, rfl, hground⟩ := h
    rw [addFact, after, Storing.perform_fact kb hground]
    constructor
    · exact fun hkb => ⟨l, rfl, hground, (Except.ok.inj hkb).symm⟩
    · rintro ⟨_, ⟨⟩, -, rfl⟩
      rfl
  · have hrefused : ∀ l, i = .literal l → l.isGround = false := by
      rintro l rfl
      exact Bool.eq_false_iff.2 fun hground => h ⟨l, rfl, hground⟩
    rw [addFact, after, Storing.perform_fact_refused kb hrefused]
    refine iff_of_false (by simp [Except.map]) ?_
    rintro ⟨l, hl, hground, -⟩
    exact h ⟨l, hl, hground⟩

theorem addFactDocument_eq_ok_iff : kb.addFactDocument v = .ok kb' ↔
    ∃ l, Literal.ofDocument v = .ok l ∧ l.isGround = true ∧ kb' = kb.push (.fact l) := by
  rw [addFactDocument, bind_eq_ok_iff]
  simp [addFact_eq_ok_iff]

theorem addRuleDocument_eq_ok_iff : kb.addRuleDocument v = .ok kb' ↔
    ∃ r, Rule.ofDocument v = .ok r ∧ kb' = kb.push (.rule r) := by
  rw [addRuleDocument, bind_eq_ok_iff]
  simp [pure, Except.pure, addRule, Storing.perform_rule, eq_comm]

/-- Documents whose clauses are added at the end one by one, if they fit. -/
theorem foldlM_add_iff {α : Type} {read : Value → Checked α} {fits : α → Prop}
    {clause : α → Clause} {add : KnowledgeBase → Value → Checked KnowledgeBase}
    (hadd : ∀ kb kb' v, add kb v = .ok kb' ↔
      ∃ a, read v = .ok a ∧ fits a ∧ kb' = kb.push (clause a)) :
    vs.foldlM add kb = .ok kb' ↔ ∃ as, List.Forall₂ (fun v a => read v = .ok a) vs as ∧
      (∀ a ∈ as, fits a) ∧ kb' = kb.pushAll (as.map clause) := by
  induction vs generalizing kb with
  | nil =>
    constructor
    · intro h
      obtain rfl := Except.ok.inj h
      exact ⟨[], .nil, by simp [pushAll]⟩
    · rintro ⟨_, _ | _, h⟩
      simp [h, pure, Except.pure, pushAll]
  | cons v vs ih =>
    rw [List.foldlM_cons, bind_eq_ok_iff]
    constructor
    · rintro ⟨kb₁, hv, hvs⟩
      obtain ⟨a, ha, hfits, rfl⟩ := (hadd _ _ _).1 hv
      obtain ⟨as, has, hall, rfl⟩ := ih.1 hvs
      exact ⟨a :: as, .cons ha has, List.forall_mem_cons.2 ⟨hfits, hall⟩, rfl⟩
    · rintro ⟨_, _ | @⟨_, a, _, as, ha, has⟩, hall, rfl⟩
      obtain ⟨hfits, hall⟩ := List.forall_mem_cons.1 hall
      exact ⟨_, (hadd _ _ _).2 ⟨a, ha, hfits, rfl⟩, ih.2 ⟨as, has, hall, rfl⟩⟩

/-- The documents of facts are read one by one, and each fact has to be ground. -/
theorem foldlM_addFactDocument_iff : vs.foldlM addFactDocument kb = .ok kb' ↔
    ∃ facts, List.Forall₂ (fun v l => Literal.ofDocument v = .ok l) vs facts ∧
      (∀ l ∈ facts, l.isGround = true) ∧ kb' = kb.pushAll (facts.map .fact) :=
  foldlM_add_iff fun _ _ _ => addFactDocument_eq_ok_iff

theorem foldlM_addRuleDocument_iff : vs.foldlM addRuleDocument kb = .ok kb' ↔
    ∃ rules, List.Forall₂ (fun v r => Rule.ofDocument v = .ok r) vs rules ∧
      kb' = kb.pushAll (rules.map .rule) := by
  -- there is nothing to ask of a rule
  have hadd : ∀ kb kb' v, addRuleDocument kb v = .ok kb' ↔
      ∃ r, Rule.ofDocument v = .ok r ∧ True ∧ kb' = kb.push (.rule r) := by
    simp [addRuleDocument_eq_ok_iff]
  simp [foldlM_add_iff hadd]

/-- The knowledge base of some facts and then some rules. -/
def ofParts (facts : List Literal) (rules : List Rule) : KnowledgeBase :=
  ⟨facts, rules, facts.map .fact ++ rules.map .rule⟩

theorem ofList_eq_ofParts (facts : List Literal) (rules : List Rule) :
    ofList (facts.map .fact ++ rules.map .rule) = ofParts facts rules := by
  have hparts : ∀ kb : KnowledgeBase, kb = ⟨kb.facts, kb.rules, kb.clauses⟩ := fun _ => rfl
  rw [hparts (ofList _), facts_ofList, rules_ofList, clauses_ofList]
  simp [ofParts, Function.comp_def, Clause.fact?, Clause.rule?]

/-- What the fields of a document say of a knowledge base: that it has these facts, all of
them ground, and these rules. -/
structure IsToldBy (fields : List (Value × Value)) (facts : List Literal) (rules : List Rule) :
    Prop where
  areFacts : EachRead Literal.ofDocument (Value.clauses? (Value.field? "facts" fields)) facts
  areGround : ∀ l ∈ facts, l.isGround = true
  areRules : EachRead Rule.ofDocument (Value.clauses? (Value.field? "rules" fields)) rules

/-- Clauses are only read from the elements of a list: neither a character nor the key of an
object is the document of one. -/
theorem eachRead_clauses_iff {α : Type} {read : Value → Checked α} {as : List α}
    (hread : ∀ v a, read v = .ok a → ∃ fs, v = .object fs)
    (hproper : ∀ v, Value.field? name fields = some v → v.isProper = true) :
    EachRead read (Value.clauses? (Value.field? name fields)) as ↔
      ∃ vs, clauseDocuments name fields = .ok vs ∧
        List.Forall₂ (fun v a => read v = .ok a) vs as := by
  -- what is walked over instead of a list has something in it, but no object
  have hnone : ∀ vs : List Value, vs ≠ [] → (∀ v ∈ vs, ∀ fs, v ≠ .object fs) →
      ¬ ∃ us, (.ok vs : Checked (List Value)) = .ok us ∧
        List.Forall₂ (fun v a => read v = .ok a) us as := by
    rintro vs hne hvs ⟨_, ⟨⟩, hread'⟩
    cases hread' with
    | nil => exact hne rfl
    | cons hv _ =>
      obtain ⟨fs, hfs⟩ := hread _ _ hv
      exact hvs _ List.mem_cons_self fs hfs
  rw [EachRead, clauseDocuments]
  cases hfield : Value.field? name fields with
  | none => simp [Value.clauses?]
  | some v =>
    by_cases htruthy : v.isTruthy = true
    · simp only [htruthy, Bool.not_true, Bool.false_eq_true, if_false]
      cases v with
      | list vs => simp [Value.clauses?]
      | str s =>
        refine iff_of_false (by simp [Value.clauses?, htruthy]) (hnone _ ?_ (by simp))
        simpa [Value.isTruthy] using htruthy
      | object fs =>
        refine iff_of_false (by simp [Value.clauses?, htruthy]) (hnone _ ?_ ?_)
        · simpa [Value.isTruthy] using htruthy
        · have hproper := hproper _ hfield
          rw [Value.isProper, Bool.and_eq_true, Value.areProperFields_iff] at hproper
          intro key hkey gs hobject
          obtain ⟨f, hf, rfl⟩ := List.mem_map.1 hkey
          simpa [hobject, Value.isKey] using (hproper.2 f hf).1
      | _ => simp [Value.clauses?, htruthy]
    · cases v with
      | list vs =>
        obtain rfl : vs = [] := by simpa [Value.isTruthy] using htruthy
        simp [Value.clauses?, htruthy]
      | _ => simp [Value.clauses?, htruthy]

/-- **A document is read as a knowledge base** if its fields say so. -/
theorem ofDocument_eq_ok_iff (hv : v.isProper = true) : ofDocument v = .ok kb ↔
    ∃ fields facts rules, v = .object fields ∧ IsToldBy fields facts rules ∧
      kb = ofParts facts rules := by
  cases v with
  | object fields =>
    have hproper : ∀ name v, Value.field? name fields = some v → v.isProper = true := by
      intro name v hfield
      rw [Value.isProper, Bool.and_eq_true, Value.areProperFields_iff] at hv
      obtain ⟨f, hf, -, rfl⟩ := Value.mem_of_get? hfield
      exact (hv.2 f hf).2
    have hfacts : ∀ facts, EachRead Literal.ofDocument
        (Value.clauses? (Value.field? "facts" fields)) facts ↔
          ∃ vs, clauseDocuments "facts" fields = .ok vs ∧
            List.Forall₂ (fun v l => Literal.ofDocument v = .ok l) vs facts :=
      fun facts => eachRead_clauses_iff
        (fun v l h => (Literal.ofDocument_eq_ok_iff.1 h).imp fun _ h => h.1) (hproper "facts")
    have hrules : ∀ rules, EachRead Rule.ofDocument
        (Value.clauses? (Value.field? "rules" fields)) rules ↔
          ∃ vs, clauseDocuments "rules" fields = .ok vs ∧
            List.Forall₂ (fun v r => Rule.ofDocument v = .ok r) vs rules :=
      fun rules => eachRead_clauses_iff
        (fun v r h => (Rule.ofDocument_eq_ok_iff.1 h).imp fun _ h => h.1) (hproper "rules")
    have hfields : ofDocument (.object fields) = .ok kb ↔ ofFields fields = .ok kb := by
      rw [ofDocument]
      cases ofFields fields <;> simp
    rw [hfields, ofFields, bind_eq_ok_iff]
    constructor
    · rintro ⟨vs, hvs, h⟩
      obtain ⟨kb₁, hkb₁, h⟩ := bind_eq_ok_iff.1 h
      obtain ⟨us, hus, h⟩ := bind_eq_ok_iff.1 h
      obtain ⟨facts, hread, hground, rfl⟩ := foldlM_addFactDocument_iff.1 hkb₁
      obtain ⟨rules, hread', rfl⟩ := foldlM_addRuleDocument_iff.1 h
      refine ⟨fields, facts, rules, rfl, ⟨(hfacts facts).2 ⟨vs, hvs, hread⟩, hground,
        (hrules rules).2 ⟨us, hus, hread'⟩⟩, ?_⟩
      rw [← pushAll_append]
      exact ofList_eq_ofParts facts rules
    · rintro ⟨_, facts, rules, ⟨⟩, h, rfl⟩
      obtain ⟨vs, hvs, hread⟩ := (hfacts facts).1 h.areFacts
      obtain ⟨us, hus, hread'⟩ := (hrules rules).1 h.areRules
      refine ⟨vs, hvs, bind_eq_ok_iff.2 ⟨empty.pushAll (facts.map .fact), ?_,
        bind_eq_ok_iff.2 ⟨us, hus, ?_⟩⟩⟩
      · exact foldlM_addFactDocument_iff.2 ⟨facts, hread, h.areGround, rfl⟩
      · refine foldlM_addRuleDocument_iff.2 ⟨rules, hread', ?_⟩
        rw [← pushAll_append]
        exact (ofList_eq_ofParts facts rules).symm
  | _ => simp [ofDocument]

end KnowledgeBase

end HornSearch
