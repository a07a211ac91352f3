/-
HornSearch/Proofs/DocumentGrammar.lean

Which documents are read.  The grammar is given here on its own, by rules that do not mention
the reader: `Value.IsTermDocument`, `Value.IsLiteralDocument`, `Value.IsRuleDocument` and
`Value.IsDocument`.

The reader follows it (`KnowledgeBase.isDocument_iff`, from one lemma for each kind of
document).  What it refuses it refuses in one way: whichever step a reading stops at, the
fault of the whole is one of documents (`Fault.isOfDocument`).

Two complaints show a part of the document, the one about an unknown tag and the one about a
fact that is not ground.  What they show has a text unless a number is too long to be written,
and then the fault is about that number instead (`refused_for_tag`).  For this it is followed
what a document passes on to what is read from it (`Value.IsPassedOn`).
-/
import HornSearch.Proofs.Persistence
import HornSearch.Proofs.Texts

namespace HornSearch

variable {v : Value} {fields : List (Value × Value)} {name : String} {ground : Bool}

/-! ### The grammar -/

namespace Value

/-- The documents of terms, of ground terms only if that is asked for. -/
inductive IsTermDocument (ground : Bool) : Value → Prop
  | var {fields : List (Value × Value)} {name : Value} : ground = false →
      field? "type" fields = some (.str "var") → field? "name" fields = some name →
      IsTermDocument ground (.object fields)
  | const {fields : List (Value × Value)} {symbol : Value} :
      field? "type" fields = some (.str "const") → field? "symbol" fields = some symbol →
      IsTermDocument ground (.object fields)
  | func {fields : List (Value × Value)} {functor : Value} {args : List Value} :
      field? "type" fields = some (.str "func") → field? "functor" fields = some functor →
      elements? (field? "args" fields) = some args →
      (∀ v ∈ args, IsTermDocument ground v) → IsTermDocument ground (.object fields)

/-- The documents of literals, of ground literals only if that is asked for. -/
inductive IsLiteralDocument (ground : Bool) : Value → Prop
  | mk {fields : List (Value × Value)} {predicate : Value} {args : List Value} :
      field? "predicate" fields = some predicate →
      elements? (field? "args" fields) = some args →
      (∀ v ∈ args, IsTermDocument ground v) → IsLiteralDocument ground (.object fields)

/-- The documents of rules. -/
inductive IsRuleDocument : Value → Prop
  | mk {fields : List (Value × Value)} {consequent : Value} {antecedents : List Value} :
      field? "consequent" fields = some consequent → IsLiteralDocument false consequent →
      elements? (field? "antecedents" fields) = some antecedents →
      (∀ v ∈ antecedents, IsLiteralDocument false v) → IsRuleDocument (.object fields)

/-- The documents of knowledge bases. -/
inductive IsDocument : Value → Prop
  | mk {fields : List (Value × Value)} {facts rules : List Value} :
      clauses? (field? "facts" fields) = some facts →
      clauses? (field? "rules" fields) = some rules →
      (∀ v ∈ facts, IsLiteralDocument true v) → (∀ v ∈ rules, IsRuleDocument v) →
      IsDocument (.object fields)

end Value

/-! ### What is read follows the grammar -/

/-- All elements can be read, each as something with a property. -/
theorem exists_eachRead_iff {α : Type} {read : Value → Checked α} {p : α → Prop}
    {elements : Option (List Value)} : (∃ as, EachRead read elements as ∧ ∀ a ∈ as, p a) ↔
      ∃ vs, elements = some vs ∧ ∀ v ∈ vs, ∃ a, read v = .ok a ∧ p a := by
  constructor
  · rintro ⟨as, ⟨vs, hvs, hall⟩, hp⟩
    refine ⟨vs, hvs, ?_⟩
    clear hvs
    induction hall with
    | nil => simp
    | cons hv _ ih =>
      obtain ⟨ha, hp⟩ := List.forall_mem_cons.1 hp
      exact List.forall_mem_cons.2 ⟨⟨_, hv, ha⟩, ih hp⟩
  · rintro ⟨vs, hvs, h⟩
    suffices hall : ∃ as, List.Forall₂ (fun v a => read v = .ok a) vs as ∧ ∀ a ∈ as, p a by
      obtain ⟨as, has, hp⟩ := hall
      exact ⟨as, ⟨vs, hvs, has⟩, hp⟩
    clear hvs
    induction vs with
    | nil => exact ⟨[], .nil, by simp⟩
    | cons v vs ih =>
      obtain ⟨⟨a, ha, hpa⟩, h⟩ := List.forall_mem_cons.1 h
      obtain ⟨as, has, hp⟩ := ih h
      exact ⟨a :: as, .cons ha has, List.forall_mem_cons.2 ⟨hpa, hp⟩⟩

/-- Terms are ground, if that is asked for, if each of them is. -/
theorem Term.isGroundList_if_iff {ts : List Term} :
    (ground = true → isGroundList ts = true) ↔ ∀ t ∈ ts, ground = true → t.isGround = true := by
  rw [isGroundList_iff]
  exact ⟨fun h t ht hg => h hg t ht, fun h hg t ht => h t ht hg⟩

theorem Term.isTermDocument_of_ofDocument {t : Term} (h : ofDocument v = .ok t)
    (ht : ground = true → t.isGround = true) : v.IsTermDocument ground := by
  induction t using induct generalizing v with
  | var w =>
    obtain ⟨fields, rfl, htag, hname, -⟩ := ofDocument_eq_ok_iff.1 h
    refine .var ?_ htag hname
    simpa [isGround] using ht
  | const a =>
    obtain ⟨fields, rfl, htag, ha⟩ := ofDocument_eq_ok_iff.1 h
    exact .const htag ha
  | app f ts ih =>
    obtain ⟨fields, rfl, htag, hf, hts⟩ := ofDocument_eq_ok_iff.1 h
    obtain ⟨vs, hvs, hall⟩ := exists_eachRead_iff.1 ⟨ts, hts, fun t ht => ht⟩
    refine .func htag hf hvs fun v hv => ?_
    obtain ⟨t, hread, hmem⟩ := hall v hv
    exact ih t hmem hread (isGroundList_if_iff.1 ht t hmem)

/-- **Terms are read from term documents**, and from them only. -/
theorem Term.isTermDocument_iff : v.IsTermDocument ground ↔
    ∃ t, ofDocument v = .ok t ∧ (ground = true → t.isGround = true) := by
  refine ⟨fun h => ?_, fun ⟨t, ht, hground⟩ => isTermDocument_of_ofDocument ht hground⟩
  induction h with
  | var hopen htag hname =>
    refine ⟨.var ⟨_, _⟩, ofDocument_eq_ok_iff.2 ⟨_, rfl, htag, hname, rfl⟩, fun hground => ?_⟩
    cases hopen.symm.trans hground
  | const htag ha => exact ⟨.const _, ofDocument_eq_ok_iff.2 ⟨_, rfl, htag, ha⟩, fun _ => rfl⟩
  | func htag hf hargs _ ih =>
    obtain ⟨ts, hts, hground⟩ := exists_eachRead_iff.2 ⟨_, hargs, ih⟩
    refine ⟨.app _ ts, ofDocument_eq_ok_iff.2 ⟨_, rfl, htag, hf, hts⟩, ?_⟩
    exact isGroundList_if_iff.2 hground

/-- **Literals are read from literal documents**, and from them only. -/
theorem Literal.isLiteralDocument_iff : v.IsLiteralDocument ground ↔
    ∃ l, ofDocument v = .ok l ∧ (ground = true → l.isGround = true) := by
  constructor
  · rintro ⟨hpredicate, hargs, hterms⟩
    obtain ⟨ts, hts, hground⟩ := exists_eachRead_iff.2
      ⟨_, hargs, fun v hv => Term.isTermDocument_iff.1 (hterms v hv)⟩
    refine ⟨⟨_, ts⟩, ofDocument_eq_ok_iff.2 ⟨_, rfl, hpredicate, hts⟩, ?_⟩
    exact Term.isGroundList_if_iff.2 hground
  · rintro ⟨l, hl, hground⟩
    obtain ⟨fields, rfl, hpredicate, hargs⟩ := ofDocument_eq_ok_iff.1 hl
    obtain ⟨vs, hvs, hterms⟩ := exists_eachRead_iff.1
      ⟨_, hargs, Term.isGroundList_if_iff.1 hground⟩
    exact .mk hpredicate hvs fun v hv => Term.isTermDocument_iff.2 (hterms v hv)

/-- **Rules are read from rule documents**, and from them only. -/
theorem Rule.isRuleDocument_iff : v.IsRuleDocument ↔ ∃ r, ofDocument v = .ok r ∧ True := by
  -- the literals of a rule need not be ground
  have hliteral : ∀ {v}, Value.IsLiteralDocument false v ↔
      ∃ l, Literal.ofDocument v = .ok l ∧ True := by
    simp [Literal.isLiteralDocument_iff]
  constructor
  · rintro ⟨hconsequent, hhead, hantecedents, hbody⟩
    obtain ⟨head, hhead, -⟩ := hliteral.1 hhead
    obtain ⟨body, hbody, -⟩ := exists_eachRead_iff.2
      ⟨_, hantecedents, fun v hv => hliteral.1 (hbody v hv)⟩
    exact ⟨⟨head, body⟩, ofDocument_eq_ok_iff.2 ⟨_, rfl, ⟨_, hconsequent, hhead⟩, hbody⟩, trivial⟩
  · rintro ⟨r, hr, -⟩
    obtain ⟨fields, rfl, ⟨v, hconsequent, hhead⟩, hbody⟩ := ofDocument_eq_ok_iff.1 hr
    obtain ⟨vs, hvs, hbody⟩ := exists_eachRead_iff.1 ⟨_, hbody, fun _ _ => trivial⟩
    refine .mk hconsequent (hliteral.2 ⟨_, hhead, trivial⟩) hvs fun v hv => ?_
    exact hliteral.2 (hbody v hv)

/-- **Knowledge bases are read from their documents**, and from them only. -/
theorem KnowledgeBase.isDocument_iff (hv : v.isProper = true) :
    v.IsDocument ↔ ∃ kb, ofDocument v = .ok kb := by
  constructor
  · rintro ⟨hfacts, hrules, hareFacts, hareRules⟩
    obtain ⟨facts, hfacts, hground⟩ := exists_eachRead_iff.2
      ⟨_, hfacts, fun v hv => Literal.isLiteralDocument_iff.1 (hareFacts v hv)⟩
    obtain ⟨rules, hrules, -⟩ := exists_eachRead_iff.2
      ⟨_, hrules, fun v hv => Rule.isRuleDocument_iff.1 (hareRules v hv)⟩
    refine ⟨_, (ofDocument_eq_ok_iff hv).2 ⟨_, facts, rules, rfl, ⟨hfacts, ?_, hrules⟩, rfl⟩⟩
    exact fun l hl => hground l hl rfl
  · rintro ⟨kb, hkb⟩
    obtain ⟨fields, facts, rules, rfl, htold, rfl⟩ := (ofDocument_eq_ok_iff hv).1 hkb
    obtain ⟨us, hus, hfacts⟩ := exists_eachRead_iff.1
      ⟨facts, htold.areFacts, fun l hl (_ : true = true) => htold.areGround l hl⟩
    obtain ⟨vs, hvs, hrules⟩ := exists_eachRead_iff.1 ⟨rules, htold.areRules, fun _ _ => trivial⟩
    refine .mk hus hvs (fun v hv => ?_) fun v hv => Rule.isRuleDocument_iff.2 (hrules v hv)
    exact Literal.isLiteralDocument_iff.2 (hfacts v hv)

/-- There are as many facts and rules as there are documents of them. -/
theorem KnowledgeBase.counts_of_ofDocument {kb : KnowledgeBase} (hv : v.isProper = true)
    (h : ofDocument v = .ok kb) : ∃ fields facts rules, v = .object fields ∧
      Value.clauses? (Value.field? "facts" fields) = some facts ∧
      Value.clauses? (Value.field? "rules" fields) = some rules ∧
      kb.factCount = facts.length ∧ kb.ruleCount = rules.length := by
  obtain ⟨fields, facts, rules, rfl, htold, rfl⟩ := (ofDocument_eq_ok_iff hv).1 h
  obtain ⟨us, hus, hfacts⟩ := htold.areFacts
  obtain ⟨vs, hvs, hrules⟩ := htold.areRules
  refine ⟨fields, us, vs, rfl, hus, hvs, ?_, ?_⟩
  · exact hfacts.length_eq.symm
  · exact hrules.length_eq.symm

/-! ### What is read comes from the document -/

namespace Value

variable {P Q : Value → Bool}

/-- A property that a document passes on to its parts, and that strings have, and the zero that
is read for a serial that is absent. -/
structure IsPassedOn (P : Value → Bool) : Prop where
  zero : P (.int 0) = true
  string : ∀ s, P (.str s) = true
  list : ∀ vs, P (.list vs) = true → ∀ v ∈ vs, P v = true
  object : ∀ fs, P (.object fs) = true → ∀ f ∈ fs, P f.1 = true ∧ P f.2 = true

theorem isPassedOn_isJson : IsPassedOn isJson where
  zero := rfl
  string _ := rfl
  list _ h := areJson_iff.1 h
  object fs h f hf := by
    obtain ⟨hkey, hvalue⟩ := (isJson_object_iff.1 h).2 f hf
    obtain ⟨s, hs⟩ := isString_iff.1 hkey
    exact ⟨by rw [hs, isJson_str], hvalue⟩

theorem isPassedOn_isFreeOf (flaw : TextFlaw) : IsPassedOn (isFreeOf flaw) where
  zero := by cases flaw <;> decide
  string _ := rfl
  list _ h := isFreeOf_list_iff.1 h
  object _ h := isFreeOf_object_iff.1 h

theorem IsPassedOn.and (hP : IsPassedOn P) (hQ : IsPassedOn Q) :
    IsPassedOn fun v => P v && Q v where
  zero := Bool.and_eq_true_iff.2 ⟨hP.zero, hQ.zero⟩
  string s := Bool.and_eq_true_iff.2 ⟨hP.string s, hQ.string s⟩
  list vs h v hv := by
    obtain ⟨hp, hq⟩ := Bool.and_eq_true_iff.1 h
    exact Bool.and_eq_true_iff.2 ⟨hP.list vs hp v hv, hQ.list vs hq v hv⟩
  object fs h f hf := by
    obtain ⟨hp, hq⟩ := Bool.and_eq_true_iff.1 h
    obtain ⟨hpkey, hpvalue⟩ := hP.object fs hp f hf
    obtain ⟨hqkey, hqvalue⟩ := hQ.object fs hq f hf
    exact ⟨Bool.and_eq_true_iff.2 ⟨hpkey, hqkey⟩, Bool.and_eq_true_iff.2 ⟨hpvalue, hqvalue⟩⟩

theorem IsPassedOn.field? (hP : IsPassedOn P) (hv : P (.object fields) = true)
    (h : Value.field? name fields = some v) : P v = true := by
  obtain ⟨f, hf, -, rfl⟩ := mem_of_get? h
  exact (hP.object fields hv f hf).2

/-- It is passed on to the elements of a sequence. -/
theorem IsPassedOn.elements? {vs : List Value} (hP : IsPassedOn P)
    (hv : P (.object fields) = true)
    (h : Value.elements? (Value.field? name fields) = some vs) : ∀ v ∈ vs, P v = true := by
  unfold Value.elements? at h
  split at h
  · simp_all
  · next hfield =>
    obtain rfl := Option.some.inj h
    exact hP.list _ (hP.field? hv hfield)
  · split at h <;> simp_all
  · simp_all
  · cases h

/-- It is passed on to the elements of the list of facts or rules. -/
theorem IsPassedOn.clauses? {vs : List Value} (hP : IsPassedOn P)
    (hv : P (.object fields) = true)
    (h : Value.clauses? (Value.field? name fields) = some vs) : ∀ v ∈ vs, P v = true := by
  unfold Value.clauses? at h
  split at h
  · simp_all
  · next hfield =>
    obtain rfl := Option.some.inj h
    exact hP.list _ (hP.field? hv hfield)
  · split at h <;> simp_all

/-- It is passed on to whatever is walked over for facts or rules, characters and keys among
it. -/
theorem IsPassedOn.clauseDocuments {vs : List Value} (hP : IsPassedOn P)
    (hv : P (.object fields) = true) (h : clauseDocuments name fields = .ok vs) :
    ∀ v ∈ vs, P v = true := by
  unfold HornSearch.clauseDocuments at h
  split at h
  · obtain rfl := Except.ok.inj h
    simp
  · next v hfield =>
    have hfield := hP.field? hv hfield
    split at h
    · obtain rfl := Except.ok.inj h
      simp
    · split at h
      · obtain rfl := Except.ok.inj h
        exact hP.list _ hfield
      · obtain rfl := Except.ok.inj h
        rw [List.forall_mem_map]
        exact fun _ _ => hP.string _
      · obtain rfl := Except.ok.inj h
        rw [List.forall_mem_map]
        exact fun f hf => (hP.object _ hfield f hf).1
      · cases h

end Value

/-- What is read one by one was read from something. -/
theorem EachRead.exists_of_mem {α : Type} {read : Value → Checked α}
    {elements : Option (List Value)} {as : List α} {a : α} (h : EachRead read elements as)
    (ha : a ∈ as) : ∃ vs, elements = some vs ∧ ∃ v ∈ vs, read v = .ok a := by
  obtain ⟨vs, hvs, hall⟩ := h
  refine ⟨vs, hvs, ?_⟩
  clear hvs
  induction hall with
  | nil => cases ha
  | cons hv _ ih =>
    obtain rfl | ha := List.mem_cons.1 ha
    · exact ⟨_, List.mem_cons_self, hv⟩
    · obtain ⟨v, hv, hread⟩ := ih ha
      exact ⟨v, List.mem_cons_of_mem _ hv, hread⟩

section PassedOn

variable {P : Value → Bool}

/-- **Names, serials, symbols and labels are parts of the document**, and what it passes on to
its parts they have. -/
theorem Term.throughout_of_ofDocument {t : Term} (hP : Value.IsPassedOn P) (hv : P v = true)
    (h : ofDocument v = .ok t) : t.meets (.throughout P) = true := by
  induction t using induct generalizing v with
  | var w =>
    obtain ⟨fields, rfl, -, hname, hserial⟩ := ofDocument_eq_ok_iff.1 h
    have hserial : P w.serial = true := by
      rw [← hserial]
      cases hfield : Value.field? "serial" fields with
      | none => exact hP.zero
      | some n => exact hP.field? hv hfield
    exact Bool.and_eq_true_iff.2 ⟨hP.field? hv hname, hserial⟩
  | const a =>
    obtain ⟨fields, rfl, -, ha⟩ := ofDocument_eq_ok_iff.1 h
    exact hP.field? hv ha
  | app f ts ih =>
    obtain ⟨fields, rfl, -, hf, hts⟩ := ofDocument_eq_ok_iff.1 h
    refine meets_app_iff.2 ⟨hP.field? hv hf, fun t ht => ?_⟩
    obtain ⟨vs, hvs, u, hu, hread⟩ := hts.exists_of_mem ht
    exact ih t ht (hP.elements? hv hvs u hu) hread

theorem Literal.throughout_of_ofDocument {l : Literal} (hP : Value.IsPassedOn P)
    (hv : P v = true) (h : ofDocument v = .ok l) : l.meets (.throughout P) = true := by
  obtain ⟨fields, rfl, hpredicate, hargs⟩ := ofDocument_eq_ok_iff.1 h
  refine meets_iff.2 ⟨hP.field? hv hpredicate, fun t ht => ?_⟩
  obtain ⟨vs, hvs, u, hu, hread⟩ := hargs.exists_of_mem ht
  exact Term.throughout_of_ofDocument hP (hP.elements? hv hvs u hu) hread

theorem Rule.throughout_of_ofDocument {r : Rule} (hP : Value.IsPassedOn P) (hv : P v = true)
    (h : ofDocument v = .ok r) : r.meets (.throughout P) = true := by
  obtain ⟨fields, rfl, ⟨u, hu, hhead⟩, hbody⟩ := ofDocument_eq_ok_iff.1 h
  refine meets_iff.2 ⟨Literal.throughout_of_ofDocument hP (hP.field? hv hu) hhead, fun l hl => ?_⟩
  obtain ⟨us, hus, u, hu, hread⟩ := hbody.exists_of_mem hl
  exact Literal.throughout_of_ofDocument hP (hP.elements? hv hus u hu) hread

end PassedOn

/-! ### Faults -/

variable {long : Bool}

/-- The faults of reading a part of a document, where numbers that are too long to be written
come up only if `long` is set. -/
def Fault.isOfPart (long : Bool) : Fault → Bool
  | .shape _ | .unknownTag _ | .factNotGround _ => true
  | .numeral .tooLong => long
  | _ => false

/-- The faults of reading a document: it is no object, it is malformed, a term in it has an
unknown tag, or a fact is not ground. -/
def Fault.isOfDocument : Fault → Bool
  | .documentNotObject _ | .malformed _ | .unknownTag _ | .factNotGround _ => true
  | _ => false

/-- The fault of a part becomes one of the document, if it is not about a number. -/
theorem Fault.isOfDocument_ofPart {e : Fault} (h : e.isOfPart long = true) :
    e.ofPart.isOfDocument = true ∨ e.ofPart = .numeral .tooLong ∧ long = true := by
  unfold isOfPart at h
  split at h
  · exact .inl rfl
  · exact .inl rfl
  · exact .inl rfl
  · exact .inr ⟨rfl, h⟩
  · cases h

/-- A value of JSON, in which numbers that are too long come up only if `long` is set. -/
def Value.isSource (long : Bool) (v : Value) : Bool := v.isJson && (long || v.isFreeOf .tooLong)

theorem Value.isPassedOn_isSource (long : Bool) : IsPassedOn (isSource long) := by
  cases long with
  | false => exact isPassedOn_isJson.and (isPassedOn_isFreeOf .tooLong)
  | true =>
    have hjson : isSource true = isJson := by
      funext v
      rw [isSource, Bool.true_or, Bool.and_true]
    rw [hjson]
    exact isPassedOn_isJson

theorem Value.isSource_of_isJson (h : v.isJson = true) : v.isSource true = true :=
  Bool.and_eq_true_iff.2 ⟨h, rfl⟩

theorem Value.isSource_of_hasText (h : v.isJson = true) (htext : v.hasText = true) :
    v.isSource false = true :=
  Bool.and_eq_true_iff.2 ⟨h, hasText_iff.1 htext _⟩

theorem Value.hasText_of_isSource (h : v.isSource false = true) : v.hasText = true := by
  obtain ⟨hjson, hlong⟩ := Bool.and_eq_true_iff.1 h
  refine hasText_iff.2 fun flaw => ?_
  cases flaw with
  | tooLong => exact hlong
  | notString => exact isFreeOf_of_isPlain (isPlain_of_isJson hjson)

/-- The fault of asking for a text that only numbers can be in the way of. -/
theorem TextFlaw.isOfPart_fault {a : Value} {flaw : TextFlaw} {text : String}
    (hstring : a.isFreeOf .notString = true) (hlong : long = false → a.isFreeOf .tooLong = true)
    (h : a.shownAs text = .error flaw) : flaw.fault.isOfPart long = true := by
  obtain rfl := Value.failsWith_tooLong hstring _ h
  cases long with
  | true => rfl
  | false => cases (hlong rfl).symm.trans (Value.failsWith_shownAs _ h)

/-- The reading of a part fails only as it may. -/
def ReadsPart {α : Type} (long : Bool) (x : Checked α) : Prop :=
  FailsWith (fun e => e.isOfPart long = true) x

theorem readsPart_requiredField : ReadsPart long (requiredField name fields) := by
  unfold requiredField
  split
  · exact failsWith_ok _
  · exact failsWith_error rfl

theorem isOfPart_notSubscripted : (notSubscripted v).isOfPart long = true := by
  unfold notSubscripted
  split <;> rfl

/-- The text of a part of the document, which a complaint asks for. -/
theorem readsPart_textOrFault {text : String} (hv : v.isSource long = true) :
    ReadsPart long (textOrFault (v.shownAs text)) := by
  obtain ⟨hjson, hlong⟩ := Bool.and_eq_true_iff.1 hv
  cases htext : v.shownAs text with
  | ok text => exact failsWith_ok _
  | error flaw =>
    refine failsWith_error (TextFlaw.isOfPart_fault ?_ ?_ htext)
    · exact Value.isFreeOf_of_isPlain (Value.isPlain_of_isJson hjson)
    · rintro rfl
      exact hlong

theorem Term.readsPart_argsOfFields (h : ∀ f ∈ fields, ReadsPart long (argsOfValue f.2)) :
    ReadsPart long ((argsOfFields fields).getD (.ok [])) := by
  rw [argsOfFields_eq]
  cases hfield : Value.field? "args" fields with
  | none => exact failsWith_ok _
  | some v =>
    obtain ⟨f, hf, -, rfl⟩ := Value.mem_of_get? hfield
    exact h f hf

/-- Wherever the reading of a term, or of a sequence of terms, stops, it says so with a fault
of a part. -/
theorem Term.readsPart (hv : v.isSource long = true) :
    ReadsPart long (ofDocument v) ∧ ReadsPart long (argsOfValue v) := by
  have hP := Value.isPassedOn_isSource long
  induction v using Value.induct with
  | object fields ih =>
    have ih : ∀ f ∈ fields, ReadsPart long (argsOfValue f.2) :=
      fun f hf => ((ih f hf).2 (hP.object fields hv f hf).2).2
    constructor
    · rw [ofDocument]
      refine readsPart_requiredField.bind fun tag htag => ?_
      have htag := hP.field? hv (requiredField_eq_ok_iff.1 htag)
      split
      · exact readsPart_requiredField.map.bind fun _ _ => failsWith_ok _
      · exact readsPart_requiredField.bind fun _ _ => failsWith_ok _
      · refine (readsPart_argsOfFields ih).bind fun _ _ => ?_
        exact readsPart_requiredField.bind fun _ _ => failsWith_ok _
      · exact (readsPart_textOrFault htag).bind fun _ _ => failsWith_error rfl
    · cases fields with
      | nil => exact failsWith_ok _
      | cons f fields => exact failsWith_error isOfPart_notSubscripted
  | list vs ih =>
    refine ⟨failsWith_error rfl, ?_⟩
    rw [argsOfValue, ofDocuments_eq]
    exact FailsWith.mapM fun v hmem => (ih v hmem (hP.list vs hv v hmem)).1
  | str s =>
    refine ⟨failsWith_error rfl, ?_⟩
    rw [argsOfValue]
    split
    · exact failsWith_ok _
    · exact failsWith_error rfl
  | _ => exact ⟨failsWith_error rfl, failsWith_error rfl⟩

theorem Literal.readsPart_ofDocument (hv : v.isSource long = true) :
    ReadsPart long (ofDocument v) := by
  cases v with
  | object fields =>
    have hfields := (Value.isPassedOn_isSource long).object fields hv
    rw [ofDocument_object]
    refine (Term.readsPart_argsOfFields fun f hf => ?_).bind fun _ _ => ?_
    · exact (Term.readsPart (hfields f hf).2).2
    · exact readsPart_requiredField.bind fun _ _ => failsWith_ok _
  | _ => exact failsWith_error rfl

theorem readsPart_literalDocuments : ReadsPart long (literalDocuments v) := by
  unfold literalDocuments
  split
  · exact failsWith_ok _
  · split
    · exact failsWith_ok _
    · exact failsWith_error rfl
  · exact failsWith_ok _
  · exact failsWith_error rfl
  · exact failsWith_error rfl

/-- It is passed on to the documents of literals. -/
theorem Value.IsPassedOn.literalDocuments {P : Value → Bool} {vs : List Value}
    (hP : IsPassedOn P) (hv : P v = true) (h : literalDocuments v = .ok vs) :
    ∀ v ∈ vs, P v = true := by
  unfold HornSearch.literalDocuments at h
  split at h
  · obtain rfl := Except.ok.inj h
    exact hP.list _ hv
  · split at h <;> simp_all
  · simp_all
  · cases h
  · cases h

theorem Rule.readsPart_ofDocument (hv : v.isSource long = true) :
    ReadsPart long (ofDocument v) := by
  have hP := Value.isPassedOn_isSource long
  cases v with
  | object fields =>
    rw [ofDocument_object]
    refine readsPart_requiredField.bind fun u hu => ?_
    have hu := hP.field? hv (requiredField_eq_ok_iff.1 hu)
    refine (Literal.readsPart_ofDocument hu).bind fun _ _ => FailsWith.bind ?_ fun vs hvs => ?_
    · cases Value.field? "antecedents" fields with
      | none => exact failsWith_ok _
      | some v => exact readsPart_literalDocuments
    · have hvs : ∀ v ∈ vs, v.isSource long = true := by
        cases hfield : Value.field? "antecedents" fields with
        | none =>
          rw [hfield] at hvs
          obtain rfl := Except.ok.inj hvs
          simp
        | some u =>
          rw [hfield] at hvs
          exact hP.literalDocuments (hP.field? hv hfield) hvs
      refine FailsWith.bind ?_ fun _ _ => failsWith_ok _
      exact FailsWith.mapM fun v hmem => Literal.readsPart_ofDocument (hvs v hmem)
  | _ => exact failsWith_error isOfPart_notSubscripted

theorem readsPart_clauseDocuments : ReadsPart long (clauseDocuments name fields) := by
  unfold clauseDocuments
  split
  · exact failsWith_ok _
  · split
    · exact failsWith_ok _
    · split <;> first | exact failsWith_ok _ | exact failsWith_error rfl

namespace KnowledgeBase

/-- The literal that is complained about has arguments, so that its text has the texts of its
parts, and nothing else is in its way. -/
theorem readsPart_addFactDocument (kb : KnowledgeBase) (hv : v.isSource long = true) :
    ReadsPart long (kb.addFactDocument v) := by
  refine (Literal.readsPart_ofDocument hv).bind fun l hl => ?_
  cases hground : l.isGround with
  | true =>
    rw [addFact, after, Storing.perform_fact kb hground]
    exact failsWith_ok _
  | false =>
    have hargs : l.args ≠ [] := by
      intro hargs
      rw [Literal.isGround, hargs] at hground
      cases hground
    have hrefused : ∀ m, Item.literal l = .literal m → m.isGround = false := by
      rintro m ⟨⟩
      exact hground
    rw [addFact, after, Storing.perform_fact_refused kb hrefused]
    have hfree : ∀ flaw, v.isFreeOf flaw = true → l.toValue.isFreeOf flaw = true := by
      intro flaw hflaw
      refine Literal.isFreeOf_toValue ?_ fun hnone => absurd hnone hargs
      exact Literal.throughout_of_ofDocument (Value.isPassedOn_isFreeOf flaw) hflaw hl
    obtain ⟨hjson, hlong⟩ := Bool.and_eq_true_iff.1 hv
    refine failsWith_error ?_
    rw [Storing.refusal]
    split
    · rfl
    · next flaw htext =>
      refine TextFlaw.isOfPart_fault (hfree _ ?_) (fun hshort => hfree _ ?_) htext
      · exact Value.isFreeOf_of_isPlain (Value.isPlain_of_isJson hjson)
      · rwa [hshort] at hlong

theorem readsPart_ofFields (hv : (Value.object fields).isSource long = true) :
    ReadsPart long (ofFields fields) := by
  have hP := Value.isPassedOn_isSource long
  refine readsPart_clauseDocuments.bind fun us hus => ?_
  refine FailsWith.bind (FailsWith.foldlM (fun kb u hu => ?_) _) fun kb _ => ?_
  · exact readsPart_addFactDocument kb (hP.clauseDocuments hv hus u hu)
  · refine readsPart_clauseDocuments.bind fun vs hvs => FailsWith.foldlM (fun kb v hmem => ?_) _
    refine (Rule.readsPart_ofDocument ?_).bind fun _ _ => failsWith_ok _
    exact hP.clauseDocuments hv hvs v hmem

end KnowledgeBase

/-! ### The main result -/

/-- **Exactly the documents of the grammar are read**, with one fact and one rule for each of
theirs, and every other value of JSON is refused with a fault of documents, unless a number in
it is too long to be written. -/
theorem ofDocument_grammar {doc : Value} (hjson : doc.isJson = true) :
    ((∃ kb, KnowledgeBase.ofDocument doc = .ok kb) ↔ doc.IsDocument) ∧
    (¬ doc.IsDocument → ∃ fault, KnowledgeBase.ofDocument doc = .error fault ∧
      (fault.isOfDocument = true ∨ fault = .numeral .tooLong ∧ doc.hasText = false)) ∧
    ∀ kb, KnowledgeBase.ofDocument doc = .ok kb → ∃ fields facts rules, doc = .object fields ∧
      Value.clauses? (Value.field? "facts" fields) = some facts ∧
      Value.clauses? (Value.field? "rules" fields) = some rules ∧
      kb.factCount = facts.length ∧ kb.ruleCount = rules.length := by
  have hproper := Value.isProper_of_isJson hjson
  have hiff := KnowledgeBase.isDocument_iff hproper
  refine ⟨hiff.symm, fun hnot => ?_, fun kb hkb => KnowledgeBase.counts_of_ofDocument hproper hkb⟩
  rw [hiff] at hnot
  cases doc with
  | object fields =>
    have hsource : (Value.object fields).isSource (!(Value.object fields).hasText) = true := by
      refine Bool.and_eq_true_iff.2 ⟨hjson, ?_⟩
      cases htext : (Value.object fields).hasText with
      | false => rfl
      | true => exact Value.hasText_iff.1 htext _
    rw [KnowledgeBase.ofDocument] at hnot ⊢
    cases hfields : KnowledgeBase.ofFields fields with
    | ok kb => exact absurd ⟨kb, by rw [hfields]⟩ hnot
    | error e =>
      have he := KnowledgeBase.readsPart_ofFields hsource e hfields
      refine ⟨e.ofPart, rfl, ?_⟩
      rcases Fault.isOfDocument_ofPart he with hkind | ⟨hlong, htext⟩
      · exact .inl hkind
      · exact .inr ⟨hlong, by simpa using htext⟩
  | _ => exact ⟨_, rfl, .inl rfl⟩

namespace Forms

/-- The document of one fact, about one term. -/
def oneFact (t : Value) : Value := .record [
  ("facts", .list [.record [("predicate", .str "p"), ("args", .list [t])]]), ("rules", .null)]

/-- The document of a variable. -/
def blank : Value := .record [("type", .str "var"), ("name", .str "X")]

/-- The document of a constant, whose symbol is the document of a variable. -/
def picture : Value := .record [("type", .str "const"), ("symbol", blank)]

/-- The document of a function term with a variable in it. -/
def folder : Value :=
  .record [("type", .str "func"), ("functor", .str "f"), ("args", .list [blank])]

/-- The document of nothing that is known, by its tag. -/
def tagged (tag : Value) : Value := .record [("type", tag)]

/-- The document is in the grammar if its term is, and is ground. -/
theorem isDocument_oneFact_iff {t : Value} :
    (oneFact t).IsDocument ↔ t.IsTermDocument true := by
  constructor
  · rintro ⟨hfacts, -, hfact, -⟩
    obtain rfl := Option.some.inj hfacts
    obtain ⟨-, hargs, hterm⟩ := hfact _ List.mem_cons_self
    obtain rfl := Option.some.inj hargs
    exact hterm t List.mem_cons_self
  · intro ht
    refine .mk rfl rfl (List.forall_mem_singleton.2 ?_) (by simp)
    exact .mk rfl rfl (List.forall_mem_singleton.2 ht)

theorem isDocument_picture : (oneFact picture).IsDocument :=
  isDocument_oneFact_iff.2 (.const rfl rfl)

theorem not_isDocument_folder : ¬ (oneFact folder).IsDocument := by
  have hother : ∀ {s t : String}, s ≠ t → some (Value.str s) ≠ some (.str t) := by simp
  rw [isDocument_oneFact_iff]
  -- the term can only be the function term, and its argument only the variable
  rintro (⟨-, htag, -⟩ | ⟨htag, -⟩ | ⟨-, -, hargs, hterm⟩)
  · exact hother (by decide) htag
  · exact hother (by decide) htag
  obtain rfl := Option.some.inj hargs
  obtain ⟨hground, -⟩ | ⟨htag, -⟩ | ⟨htag, -⟩ := hterm _ List.mem_cons_self
  · cases hground
  · exact hother (by decide) htag
  · exact hother (by decide) htag

theorem not_isDocument_tagged {tag : Value} (h : tag.isString = false) :
    ¬ (oneFact (tagged tag)).IsDocument := by
  have hother : ∀ {s : String}, some tag ≠ some (.str s) := by
    rintro s ⟨⟩
    cases h
  rw [isDocument_oneFact_iff]
  rintro (⟨-, htag, -⟩ | ⟨htag, -⟩ | ⟨htag, -⟩)
  all_goals exact hother htag

theorem ofDocument_tagged {tag : Value} (h : tag.isString = false) :
    Term.ofDocument (tagged tag) =
      (textOrFault tag.bareText?).bind fun text => .error (.unknownTag text) := by
  cases tag with
  | str => cases h
  | _ => rfl

/-- Nothing is read where the term of the fact cannot be read. -/
theorem ofDocument_oneFact {t : Value} {fault : Fault} (h : Term.ofDocument t = .error fault) :
    KnowledgeBase.ofDocument (oneFact t) = .error fault.ofPart := by
  have hargs : Term.argsOfValue (.list [t]) = .error fault := by
    rw [Term.argsOfValue, Term.ofDocuments, h]
    rfl
  have hliteral : Literal.ofDocument
      (.record [("predicate", .str "p"), ("args", .list [t])]) = .error fault := by
    rw [Value.record, Literal.ofDocument]
    show (Term.argsOfValue (.list [t]) >>= _) = _
    rw [hargs]
    rfl
  have hfacts : [Value.record [("predicate", .str "p"), ("args", .list [t])]].foldlM
      KnowledgeBase.addFactDocument .empty = .error fault := by
    rw [List.foldlM_cons, KnowledgeBase.addFactDocument, hliteral]
    rfl
  have hdocument : ∀ fields, KnowledgeBase.ofFields fields = .error fault →
      KnowledgeBase.ofDocument (.object fields) = .error fault.ofPart := by
    intro fields hfields
    rw [KnowledgeBase.ofDocument, hfields]
  refine hdocument _ ?_
  show ([Value.record _].foldlM KnowledgeBase.addFactDocument .empty >>= _) = _
  rw [hfacts]
  rfl

end Forms

open Forms in
/-- A constant may look like a variable, but a fact with a variable in it is refused. -/
theorem grammar_of_facts :
    (∃ kb, KnowledgeBase.ofDocument (oneFact picture) = .ok kb ∧ kb.factCount = 1) ∧
    ∃ fault, KnowledgeBase.ofDocument (oneFact folder) = .error fault ∧
      fault.isOfDocument = true := by
  have hpicture : (oneFact picture).isJson = true := by decide
  have hfolder : (oneFact folder).isJson = true := by decide
  constructor
  · obtain ⟨hiff, -, hcounts⟩ := ofDocument_grammar hpicture
    obtain ⟨kb, hkb⟩ := hiff.2 isDocument_picture
    obtain ⟨fields, facts, rules, hdoc, hfacts, -, hcount, -⟩ := hcounts kb hkb
    obtain rfl := Value.object.inj hdoc
    obtain rfl := Option.some.inj hfacts
    exact ⟨kb, hkb, hcount⟩
  · obtain ⟨fault, hfault, hkind⟩ := (ofDocument_grammar hfolder).2.1 not_isDocument_folder
    exact ⟨fault, hfault, hkind.resolve_right fun h => absurd h.2 (by decide)⟩

open Forms Numeral in
/-- A number for a tag, which is too long to be written.  The document is not of the grammar, but
it is not with a fault of documents that it is refused. -/
theorem refused_for_tag :
    (oneFact (tagged (.int huge))).isJson = true ∧ ¬ (oneFact (tagged (.int huge))).IsDocument ∧
    KnowledgeBase.ofDocument (oneFact (tagged (.int huge))) = .error (.numeral .tooLong) := by
  have htag : (Value.int huge).isString = false := rfl
  refine ⟨rfl, not_isDocument_tagged htag, ?_⟩
  have hterm : Term.ofDocument (tagged (.int huge)) = .error (.numeral .tooLong) := by
    rw [ofDocument_tagged htag, Value.bareText?, Value.shownAs_huge]
    rfl
  exact ofDocument_oneFact hterm

end HornSearch
