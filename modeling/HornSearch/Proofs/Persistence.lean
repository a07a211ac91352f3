/-
HornSearch/Proofs/Persistence.lean

Knowledge bases survive being written and read back.  Whatever was built by adding facts and
rules is read back with the same facts and the same rules, facts first, and is then written
as the same document (`ofDocument_toDocument`).  A text in between makes no difference, in any
format whose reader reads back what its writer wrote (`TextFormat.ReadsBack`).

The other way round, a document that is read and written again comes out in its full form
(`Value.full`): known fields in their order, absent or empty sequences as empty lists, no
serials that are zero, and nothing else (`toDocument_of_ofDocument`).  A constant may carry any
plain value, also one that looks like the document of a term; its symbol is copied and never
read.
-/
import HornSearch.KnowledgeBase.File
import HornSearch.Proofs.Documents
import HornSearch.Proofs.ProvedGoals
import HornSearch.Proofs.Texts

namespace HornSearch

variable {p : Criterion} {kb kb' : KnowledgeBase} {v : Value} {fields : List (Value × Value)}

/-! ### Plain JSON values -/

namespace Value

mutual

/-- Whether the value is one of JSON: objects have distinct strings for keys, and there are
neither tuples nor quoted syntax. -/
def isJson : Value → Bool
  | .list vs => areJson vs
  | .object fs => distinctKeys fs && areJsonFields fs
  | .tuple _ | .quoted _ _ => false
  | _ => true

/-- Whether every value of the list is one of JSON. -/
def areJson : List Value → Bool
  | [] => true
  | v :: vs => isJson v && areJson vs

/-- Whether every field has a string for a key and a value of JSON. -/
def areJsonFields : List (Value × Value) → Bool
  | [] => true
  | (key, v) :: fs => key.isString && isJson v && areJsonFields fs

end

theorem areJson_iff {vs : List Value} : areJson vs = true ↔ ∀ v ∈ vs, v.isJson = true := by
  induction vs with
  | nil => simp [areJson]
  | cons v vs ih => simp [areJson, ih]

theorem areJsonFields_iff {fs : List (Value × Value)} :
    areJsonFields fs = true ↔ ∀ f ∈ fs, f.1.isString = true ∧ f.2.isJson = true := by
  induction fs with
  | nil => simp [areJsonFields]
  | cons f fs ih => simp [areJsonFields, ih]

theorem isJson_object_iff : (object fields).isJson = true ↔
    distinctKeys fields = true ∧ ∀ f ∈ fields, f.1.isString = true ∧ f.2.isJson = true := by
  rw [isJson, Bool.and_eq_true, areJsonFields_iff]

theorem isString_iff : v.isString = true ↔ ∃ s, v = .str s := by
  cases v <;> simp [isString, string?]

theorem isProper_of_isJson (h : v.isJson = true) : v.isProper = true := by
  induction v using induct with
  | list vs ih =>
    rw [isJson, areJson_iff] at h
    rw [isProper, areProper_iff]
    exact fun v hv => ih v hv (h v hv)
  | object fs ih =>
    obtain ⟨hkeys, hfields⟩ := isJson_object_iff.1 h
    rw [isProper, Bool.and_eq_true, areProperFields_iff]
    refine ⟨hkeys, fun f hf => ⟨?_, (ih f hf).2 (hfields f hf).2⟩⟩
    obtain ⟨s, hs⟩ := isString_iff.1 (hfields f hf).1
    rw [hs, isKey]
  | tuple vs => cases h
  | quoted shape parts => cases h
  | _ => rfl

theorem isPlain_of_isJson (h : v.isJson = true) : v.isPlain = true := by
  induction v using induct with
  | list vs ih =>
    rw [isJson, areJson_iff] at h
    rw [isPlain, arePlain_iff]
    exact fun v hv => ih v hv (h v hv)
  | object fs ih =>
    obtain ⟨-, hfields⟩ := isJson_object_iff.1 h
    rw [isPlain, arePlainFields_iff]
    refine fun f hf => ⟨?_, (ih f hf).2 (hfields f hf).2⟩
    obtain ⟨s, hs⟩ := isString_iff.1 (hfields f hf).1
    rw [hs, isPlain]
    all_goals simp
  | tuple vs => cases h
  | quoted shape parts => cases h
  | _ => rfl

@[simp] theorem isJson_str (s : String) : (str s).isJson = true := rfl

@[simp] theorem isJson_int (n : Int) : (int n).isJson = true := rfl

/-- A list of values of JSON is one. -/
theorem isJson_list_map {α : Type} {f : α → Value} {as : List α}
    (h : ∀ a ∈ as, (f a).isJson = true) : (list (as.map f)).isJson = true := by
  rw [isJson, areJson_iff, List.forall_mem_map]
  exact h

/-- A record of values of JSON is one. -/
theorem isJson_record {named : List (String × Value)} (hnames : (named.map (·.1)).Nodup)
    (hvalues : ∀ f ∈ named, f.2.isJson = true) : (record named).isJson = true := by
  rw [record, isJson_object_iff]
  constructor
  · rw [distinctKeys, decide_eq_true_eq, List.pairwise_map]
    refine (List.pairwise_map.1 hnames).imp fun {f g} hne => ?_
    simpa [sameKey] using hne
  · intro f hf
    obtain ⟨f', hf', rfl⟩ := List.mem_map.1 hf
    exact ⟨rfl, hvalues f' hf'⟩

end Value

/-! ### Knowledge bases that are built -/

/-- String labels, string names, whole serials, and any value of JSON as a constant. -/
def Criterion.json : Criterion := ⟨Variable.isRegular, Value.isJson, Value.isString⟩

/-- A knowledge base that is made by adding facts, rules and clauses, one after another. -/
inductive KnowledgeBase.Built (p : Criterion) : KnowledgeBase → Prop
  | empty : Built p .empty
  | addFact {kb kb' : KnowledgeBase} {l : Literal} : Built p kb → l.meets p = true →
      kb.addFact (.literal l) = .ok kb' → Built p kb'
  | addRule {kb : KnowledgeBase} {r : Rule} : Built p kb → r.meets p = true →
      Built p (kb.addRule r)
  | addFactClause {kb kb' : KnowledgeBase} {l : Literal} : Built p kb → l.meets p = true →
      kb.addClause (.literal l) = .ok kb' → Built p kb'
  | addRuleClause {kb kb' : KnowledgeBase} {r : Rule} : Built p kb → r.meets p = true →
      kb.addClause (.rule r) = .ok kb' → Built p kb'

namespace KnowledgeBase

theorem Meets.addFact {l : Literal} (hkb : kb.Meets p) (hl : l.meets p = true)
    (h : kb.addFact (.literal l) = .ok kb') : kb'.Meets p := by
  obtain ⟨_, ⟨⟩, hground, rfl⟩ := addFact_eq_ok_iff.1 h
  exact ⟨List.forall_mem_append.2 ⟨hkb.facts, List.forall_mem_singleton.2 ⟨hl, hground⟩⟩, hkb.rules⟩

theorem Meets.addRule {r : Rule} (hkb : kb.Meets p) (hr : r.meets p = true) :
    (kb.addRule r).Meets p :=
  ⟨hkb.facts, List.forall_mem_append.2 ⟨hkb.rules, List.forall_mem_singleton.2 hr⟩⟩

/-- What is built has ground facts, and all in it meets the criterion. -/
theorem Built.meets (h : Built p kb) : kb.Meets p := by
  induction h with
  | empty => exact ⟨by simp [KnowledgeBase.empty], by simp [KnowledgeBase.empty]⟩
  | addFact _ hl hadd ih => exact ih.addFact hl hadd
  | addRule _ hr ih => exact ih.addRule hr
  | addFactClause _ hl hadd ih => exact ih.addFact hl hadd
  | addRuleClause _ hr hadd ih =>
    obtain rfl := Except.ok.inj hadd
    exact ih.addRule hr

end KnowledgeBase

/-! ### Written documents -/

theorem Term.toDocuments_eq (ts : List Term) : toDocuments ts = ts.map toDocument := by
  induction ts with
  | nil => rfl
  | cons t ts ih => rw [toDocuments, ih, List.map_cons]

/-- **Documents are values of JSON.** -/
theorem Term.isJson_toDocument {t : Term} (h : t.meets .json = true) :
    t.toDocument.isJson = true := by
  induction t using induct with
  | var v =>
    obtain ⟨s, n, rfl⟩ := Variable.isRegular_iff.1 h
    rw [toDocument]
    split <;> exact Value.isJson_record (by simp) (by simp)
  | const a =>
    have ha : a.isJson = true := h
    exact Value.isJson_record (by simp) (by simp [ha])
  | app f ts ih =>
    obtain ⟨hf, hts⟩ := meets_app_iff.1 h
    obtain ⟨s, rfl⟩ := Value.isString_iff.1 hf
    have hargs := Value.isJson_list_map fun t ht => ih t ht (hts t ht)
    rw [toDocument, toDocuments_eq]
    exact Value.isJson_record (by simp) (by simp [hargs])

theorem Literal.isJson_toDocument {l : Literal} (h : l.meets .json = true) :
    l.toDocument.isJson = true := by
  obtain ⟨hpredicate, hargs⟩ := meets_iff.1 h
  obtain ⟨s, hs⟩ := Value.isString_iff.1 hpredicate
  have hargs := Value.isJson_list_map fun t ht => Term.isJson_toDocument (hargs t ht)
  rw [toDocument, Term.toDocuments_eq, hs]
  exact Value.isJson_record (by simp) (by simp [hargs])

theorem Rule.isJson_toDocument {r : Rule} (h : r.meets .json = true) :
    r.toDocument.isJson = true := by
  obtain ⟨hhead, hbody⟩ := meets_iff.1 h
  have hbody := Value.isJson_list_map fun l hl => Literal.isJson_toDocument (hbody l hl)
  exact Value.isJson_record (by simp) (by simp [hbody, Literal.isJson_toDocument hhead])

theorem KnowledgeBase.isJson_toDocument (hkb : kb.Meets .json) : kb.toDocument.isJson = true := by
  have hfacts := Value.isJson_list_map fun l hl => Literal.isJson_toDocument (hkb.facts l hl).1
  have hrules := Value.isJson_list_map fun r hr => Rule.isJson_toDocument (hkb.rules r hr)
  exact Value.isJson_record (by simp) (by simp [hfacts, hrules])

/-! ### Reading back -/

/-- A document that is written for a list of things is read back one by one. -/
theorem eachRead_map {α : Type} {read : Value → Checked α} {write : α → Value} {as : List α}
    {elements : Option (List Value)} (helements : elements = some (as.map write))
    (h : ∀ a ∈ as, read (write a) = .ok a) : EachRead read elements as :=
  ⟨_, helements, List.forall₂_map_left_iff.2 (List.forall₂_same.2 h)⟩

/-- **Terms are read back.**  A serial of zero is left out, and read for one that is absent. -/
theorem Term.ofDocument_toDocument {t : Term} (h : t.meets .json = true) :
    ofDocument t.toDocument = .ok t := by
  induction t using induct with
  | var v =>
    obtain ⟨s, n, rfl⟩ := Variable.isRegular_iff.1 h
    refine ofDocument_eq_ok_iff.2 ⟨_, by rw [toDocument, Value.record], ?_⟩
    rw [IsToldBy, Value.field?_record, Value.field?_record, Value.field?_record]
    by_cases hn : n = 0
    · simp [hn, Value.isTruthy, lookup_cons_eq]
    · simp [hn, Value.isTruthy, lookup_cons_eq]
  | const a => exact ofDocument_eq_ok_iff.2 ⟨_, rfl, rfl, rfl⟩
  | app f ts ih =>
    obtain ⟨-, hts⟩ := meets_app_iff.1 h
    refine ofDocument_eq_ok_iff.2 ⟨_, by rw [toDocument, Value.record], rfl, rfl, ?_⟩
    refine eachRead_map ?_ fun t ht => ih t ht (hts t ht)
    rw [← toDocuments_eq]
    rfl

theorem Literal.ofDocument_toDocument {l : Literal} (h : l.meets .json = true) :
    ofDocument l.toDocument = .ok l := by
  obtain ⟨-, hargs⟩ := meets_iff.1 h
  refine ofDocument_eq_ok_iff.2 ⟨_, by rw [toDocument, Value.record], rfl, ?_⟩
  refine eachRead_map ?_ fun t ht => Term.ofDocument_toDocument (hargs t ht)
  rw [← Term.toDocuments_eq]
  rfl

theorem Rule.ofDocument_toDocument {r : Rule} (h : r.meets .json = true) :
    ofDocument r.toDocument = .ok r := by
  obtain ⟨hhead, hbody⟩ := meets_iff.1 h
  refine ofDocument_eq_ok_iff.2 ⟨_, by rw [toDocument, Value.record], ⟨_, rfl, ?_⟩, ?_⟩
  · exact Literal.ofDocument_toDocument hhead
  · exact eachRead_map rfl fun l hl => Literal.ofDocument_toDocument (hbody l hl)

namespace KnowledgeBase

/-- **Knowledge bases are read back**, with the facts before the rules. -/
theorem ofDocument_toDocument (hkb : kb.Meets .json) :
    ofDocument kb.toDocument = .ok (ofParts kb.facts kb.rules) := by
  have hproper := Value.isProper_of_isJson (isJson_toDocument hkb)
  refine (ofDocument_eq_ok_iff hproper).2
    ⟨_, kb.facts, kb.rules, by rw [toDocument, Value.record], ⟨?_, ?_, ?_⟩, rfl⟩
  · exact eachRead_map rfl fun l hl => Literal.ofDocument_toDocument (hkb.facts l hl).1
  · exact fun l hl => (hkb.facts l hl).2
  · exact eachRead_map rfl fun r hr => Rule.ofDocument_toDocument (hkb.rules r hr)

/-- What is read has the facts and the rules of a knowledge base, the facts before the rules,
and its document. -/
def RestoredBy (kb : KnowledgeBase) (result : Checked KnowledgeBase) : Prop :=
  ∃ kb', result = .ok kb' ∧ kb'.facts = kb.facts ∧ kb'.rules = kb.rules ∧
    kb'.clauses = kb.facts.map .fact ++ kb.rules.map .rule ∧ kb'.toDocument = kb.toDocument

theorem restoredBy_document (hkb : kb.Meets .json) : kb.RestoredBy (ofDocument kb.toDocument) :=
  ⟨_, ofDocument_toDocument hkb, rfl, rfl, rfl, rfl⟩

end KnowledgeBase

/-! ### Texts -/

/-- The text that is written for a value is read back as it. -/
def TextFormat.ReadsBack (format : TextFormat) (v : Value) : Prop :=
  ∀ text, format.write v = .ok text → format.read text = .ok v

theorem TextFormat.readsBack_of_read {format : TextFormat} {text : String}
    (hwrite : format.write v = .ok text) (hread : format.read text = .ok v) :
    format.ReadsBack v := by
  intro text' htext
  obtain rfl := Except.ok.inj (hwrite.symm.trans htext)
  exact hread

theorem TextFormat.read_ofParts {written? : Value → Option String} {unwritable badSyntax : Fault}
    {read : String → Reading Value} {text : String} (h : read text = .ok v) :
    (ofParts written? unwritable read badSyntax).read text = .ok v := by
  simp only [ofParts, valueOfText, h]

namespace KnowledgeBase

/-- A knowledge base is restored from a text that is read back as its document. -/
theorem restoredBy_text (hkb : kb.Meets .json) {format : TextFormat}
    (hformat : format.ReadsBack kb.toDocument) {text : String} (htext : kb.save format = .ok text) :
    kb.RestoredBy (load format (some text)) := by
  rw [load, hformat text htext]
  exact restoredBy_document hkb

/-- A knowledge base has a JSON text unless a number in it is too long to be written. -/
theorem exists_toJson (hkb : kb.Meets .json) (htext : kb.toDocument.hasText = true) :
    ∃ text, kb.toJson = .ok text := by
  have hplain := Value.isPlain_of_isJson (isJson_toDocument hkb)
  have hwritten : Json.write? kb.toDocument = some _ := if_pos hplain
  rw [toJson, save, TextFormat.json, TextFormat.ofParts]
  simp only [hwritten, Value.shownAs_eq htext]
  exact ⟨_, rfl⟩

end KnowledgeBase

/-! ### Full documents -/

namespace Value

/-- The value of a field, null if it is absent. -/
def fieldOrNull (name : String) (fields : List (Value × Value)) : Value :=
  (field? name fields).getD .null

/-- The elements of a list; what is absent or no list has none. -/
def listed : Option Value → List Value
  | some (.list vs) => vs
  | _ => []

mutual

/-- The document of a term with the fields that it can have, each in its place, and no others:
a serial unless it counts as zero, and arguments, if only an empty list of them. -/
def fullTerm : Value → Value
  | .object fields =>
    match field? "type" fields with
    | some (.str "var") =>
      let serial := fieldOrNull "serial" fields
      record ([("type", .str "var"), ("name", fieldOrNull "name" fields)] ++
        if serial.isTruthy then [("serial", serial)] else [])
    | some (.str "const") =>
      record [("type", .str "const"), ("symbol", fieldOrNull "symbol" fields)]
    | _ =>
      record [("type", .str "func"), ("functor", fieldOrNull "functor" fields),
        ("args", .list (fullArgs fields))]
  | v => v

/-- The full documents of the arguments among the fields. -/
def fullArgs : List (Value × Value) → List Value
  | [] => []
  | (key, v) :: fields => if key.sameKey (.str "args") then fullTermsOf v else fullArgs fields

/-- The full documents of the elements of a list. -/
def fullTermsOf : Value → List Value
  | .list vs => fullTerms vs
  | _ => []

/-- The full documents of some terms. -/
def fullTerms : List Value → List Value
  | [] => []
  | v :: vs => fullTerm v :: fullTerms vs

end

/-- The document of a literal in full. -/
def fullLiteral : Value → Value
  | .object fields =>
    record [("predicate", fieldOrNull "predicate" fields), ("args", .list (fullArgs fields))]
  | v => v

/-- The document of a rule in full. -/
def fullRule : Value → Value
  | .object fields =>
    record [("consequent", fullLiteral (fieldOrNull "consequent" fields)),
      ("antecedents", .list ((listed (field? "antecedents" fields)).map fullLiteral))]
  | v => v

/-- The document of a knowledge base in full. -/
def full : Value → Value
  | .object fields =>
    record [("facts", .list ((listed (field? "facts" fields)).map fullLiteral)),
      ("rules", .list ((listed (field? "rules" fields)).map fullRule))]
  | v => v

theorem fullTerms_eq (vs : List Value) : fullTerms vs = vs.map fullTerm := by
  induction vs with
  | nil => rfl
  | cons v vs ih => rw [fullTerms, ih, List.map_cons]

theorem fullArgs_eq : fullArgs fields = (listed (field? "args" fields)).map fullTerm := by
  have hlisted : fullArgs fields = ((field? "args" fields).map fullTermsOf).getD [] := by
    induction fields with
    | nil => rfl
    | cons f fields ih =>
      obtain ⟨key, v⟩ := f
      rw [fullArgs]
      by_cases h : key.sameKey (.str "args") = true
      · simp [field?, get?, h]
      · rw [if_neg h, ih]
        simp [field?, get?, h]
  rw [hlisted]
  cases field? "args" fields with
  | none => rfl
  | some v => cases v <;> first | rfl | exact fullTerms_eq _

theorem listed_of_elements {field : Option Value} {vs : List Value}
    (h : elements? field = some vs) : listed field = vs := by
  unfold elements? at h
  split at h <;> simp_all [listed]

theorem listed_of_clauses {field : Option Value} {vs : List Value}
    (h : clauses? field = some vs) : listed field = vs := by
  unfold clauses? at h
  split at h <;> simp_all [listed]

end Value

/-- What is written for things that were read is what is made of the elements. -/
theorem EachRead.map_write {α : Type} {read : Value → Checked α} {write : α → Value}
    {full : Value → Value} {elements : Option (List Value)} {as : List α} {vs : List Value}
    (h : EachRead read elements as) (hvs : ∀ us, elements = some us → vs = us)
    (hwrite : ∀ a ∈ as, ∀ v, read v = .ok a → write a = full v) :
    as.map write = vs.map full := by
  obtain ⟨us, hus, hall⟩ := h
  obtain rfl := hvs us hus
  clear hus hvs
  induction hall with
  | nil => rfl
  | cons hv _ ih =>
    obtain ⟨ha, has⟩ := List.forall_mem_cons.1 hwrite
    rw [List.map_cons, List.map_cons, ha _ hv, ih has]

/-- What is written for sequences that were read. -/
theorem EachRead.map_elements {α : Type} {read : Value → Checked α} {write : α → Value}
    {full : Value → Value} {field : Option Value} {as : List α}
    (h : EachRead read (Value.elements? field) as)
    (hwrite : ∀ a ∈ as, ∀ v, read v = .ok a → write a = full v) :
    as.map write = (Value.listed field).map full :=
  h.map_write (fun _ hus => Value.listed_of_elements hus) hwrite

theorem Term.toDocument_of_ofDocument {t : Term} (h : ofDocument v = .ok t) :
    t.toDocument = v.fullTerm := by
  induction t using induct generalizing v with
  | var w =>
    obtain ⟨fields, rfl, htag, hname, hserial⟩ := ofDocument_eq_ok_iff.1 h
    rw [Value.fullTerm, htag, toDocument, ← hserial]
    -- an absent serial is read as zero, and neither is written
    cases hfield : Value.field? "serial" fields with
    | none => simp [Value.fieldOrNull, hfield, hname, Value.isTruthy]
    | some n => simp [Value.fieldOrNull, hfield, hname]
  | const a =>
    obtain ⟨fields, rfl, htag, ha⟩ := ofDocument_eq_ok_iff.1 h
    simp [Value.fullTerm, htag, toDocument, Value.fieldOrNull, ha]
  | app f ts ih =>
    obtain ⟨fields, rfl, htag, hf, hts⟩ := ofDocument_eq_ok_iff.1 h
    have hargs := hts.map_elements fun t ht v hv => ih t ht hv
    simp [Value.fullTerm, htag, toDocument, Value.fieldOrNull, hf, toDocuments_eq, hargs,
      Value.fullArgs_eq]

theorem Literal.toDocument_of_ofDocument {l : Literal} (h : ofDocument v = .ok l) :
    l.toDocument = v.fullLiteral := by
  obtain ⟨fields, rfl, hl⟩ := ofDocument_eq_ok_iff.1 h
  have hargs := hl.args.map_elements fun t _ v hv => Term.toDocument_of_ofDocument hv
  simp [Value.fullLiteral, toDocument, Value.fieldOrNull, hl.predicate, Term.toDocuments_eq, hargs,
    Value.fullArgs_eq]

theorem Rule.toDocument_of_ofDocument {r : Rule} (h : ofDocument v = .ok r) :
    r.toDocument = v.fullRule := by
  obtain ⟨fields, rfl, ⟨v, hv, hhead⟩, hbody⟩ := ofDocument_eq_ok_iff.1 h
  have hbody := hbody.map_elements fun l _ v hv => Literal.toDocument_of_ofDocument hv
  simp [Value.fullRule, toDocument, Value.fieldOrNull, hv, hbody,
    Literal.toDocument_of_ofDocument hhead]

/-- **A document that is read is written in full**: known fields in their places, absent and
empty sequences as empty lists, no serials that count as zero, and no other fields. -/
theorem KnowledgeBase.toDocument_of_ofDocument (hv : v.isProper = true)
    (h : ofDocument v = .ok kb) : kb.toDocument = v.full := by
  obtain ⟨fields, facts, rules, rfl, htold, rfl⟩ := (ofDocument_eq_ok_iff hv).1 h
  have hfacts := htold.areFacts.map_write (fun _ hus => Value.listed_of_clauses hus)
    fun l _ v hv => Literal.toDocument_of_ofDocument hv
  have hrules := htold.areRules.map_write (fun _ hus => Value.listed_of_clauses hus)
    fun r _ v hv => Rule.toDocument_of_ofDocument hv
  show Value.record [("facts", .list (facts.map Literal.toDocument)),
    ("rules", .list (rules.map Rule.toDocument))] = _
  rw [hfacts, hrules, Value.full]

/-! ### The main result -/

namespace Storage

/-- A constant whose symbol looks like the document of a variable. -/
def label : Term := .const (.record [("type", .str "var")])

/-- What is in a box is labelled. -/
def boxes : Rule :=
  ⟨⟨.str "labelled", [.var ⟨.str "X", .int (-1)⟩]⟩,
    [⟨.str "holds", [.var ⟨.str "B", .int 0⟩, .var ⟨.str "X", .int 2⟩]⟩]⟩

/-- There is a box in a box. -/
def box : Literal := ⟨.str "holds", [.app (.str "box") [.app (.str "box") [label]], label]⟩

/-- A rule, and after it a fact. -/
def shelf : KnowledgeBase := .ofList [.rule boxes, .fact box]

/-- Only a label. -/
def labels : KnowledgeBase := .ofList [.fact ⟨.str "p", [label]⟩]

/-- A document with a field that is no part of it, without arguments or rules, and with a serial
of zero. -/
def sparse : Value := .record [
  ("facts", .str ""),
  ("rules", .list [.record [
    ("consequent", .record [("predicate", .str "p"),
      ("args", .list [.record [("serial", .int 0), ("name", .str "X"), ("type", .str "var")]])]),
    ("note", .null)]])]

example : sparse.full = .record [
    ("facts", .list []),
    ("rules", .list [.record [
      ("consequent", .record [("predicate", .str "p"),
        ("args", .list [.record [("type", .str "var"), ("name", .str "X")]])]),
      ("antecedents", .list [])]])] := by
  rfl

theorem built_shelf : KnowledgeBase.Built .json shelf :=
  .addFactClause (.addRule .empty (r := boxes) (by decide)) (l := box) (by rfl) rfl

theorem built_labels : KnowledgeBase.Built .json labels :=
  .addFact .empty (l := ⟨.str "p", [label]⟩) (by rfl) rfl

/-- The label as JSON. -/
def jsonText : String := "\x7b
  \"facts\": [
    \x7b
      \"predicate\": \"p\",
      \"args\": [
        \x7b
          \"type\": \"const\",
          \"symbol\": \x7b
            \"type\": \"var\"
          \x7d
        \x7d
      ]
    \x7d
  ],
  \"rules\": []
\x7d"

/-- The label as YAML. -/
def yamlText : String := "facts:
- predicate: p
  args:
  - type: const
    symbol:
      type: var
rules: []
"

set_option maxRecDepth 4000 in
theorem read_jsonText : Json.read jsonText = .ok labels.toDocument := by
  have hchars : jsonText.toList = _ := String.toList_ofList
  rw [Json.read, hchars]
  rfl

set_option maxRecDepth 4000 in
theorem read_yamlText : Yaml.read yamlText = .ok labels.toDocument := by
  have hchars : yamlText.toList = _ := String.toList_ofList
  rw [Yaml.read, Yaml.readRoot, Yaml.Line.ofDocument, hchars]
  rfl

set_option maxRecDepth 4000 in
theorem save_json : labels.save .json = .ok jsonText := by rfl

set_option maxRecDepth 4000 in
theorem save_yaml : labels.save .yaml = .ok yamlText := by rfl

theorem readsBack_json : TextFormat.json.ReadsBack labels.toDocument :=
  TextFormat.readsBack_of_read save_json (TextFormat.read_ofParts read_jsonText)

theorem readsBack_yaml : TextFormat.yaml.ReadsBack labels.toDocument :=
  TextFormat.readsBack_of_read save_yaml (TextFormat.read_ofParts read_yamlText)

end Storage

end HornSearch
