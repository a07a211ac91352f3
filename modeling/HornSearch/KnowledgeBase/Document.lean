/-
HornSearch/KnowledgeBase/Document.lean

Knowledge bases as plain documents.

A document is an object with the lists `facts` and `rules`; literals are objects
with a predicate and arguments, terms are objects tagged by their type.  Writing
gives every field; reading takes absent arguments, bodies, facts and rules for
empty and an absent serial for zero, and ignores other fields.

Reading is a walk over the document.  Where a sequence is expected, a list gives
its elements; an empty string or object is an empty sequence, and any other string
or object is walked too, over its characters or keys, none of which is a document
of anything.
-/
import HornSearch.KnowledgeBase

namespace HornSearch

/-! ### Writing -/

namespace Term

mutual

/-- The document of a term. -/
def toDocument : Term → Value
  | .var v =>
    .record ([("type", .str "var"), ("name", v.name)] ++
      if v.serial.isTruthy then [("serial", v.serial)] else [])
  | .const a => .record [("type", .str "const"), ("symbol", a)]
  | .app f ts =>
    .record [("type", .str "func"), ("functor", f), ("args", .list (toDocuments ts))]

/-- The documents of a list of terms. -/
def toDocuments : List Term → List Value
  | [] => []
  | t :: ts => toDocument t :: toDocuments ts

end

end Term

/-- The document of a literal. -/
def Literal.toDocument (l : Literal) : Value :=
  .record [("predicate", l.predicate), ("args", .list (Term.toDocuments l.args))]

/-- The document of a rule. -/
def Rule.toDocument (r : Rule) : Value :=
  .record [("consequent", r.head.toDocument),
    ("antecedents", .list (r.body.map Literal.toDocument))]

/-- The document of a knowledge base. -/
def KnowledgeBase.toDocument (kb : KnowledgeBase) : Value :=
  .record [("facts", .list (kb.facts.map Literal.toDocument)),
    ("rules", .list (kb.rules.map Rule.toDocument))]

/-- The document of a term or a literal; other items have none. -/
def Item.toDocument : Item → Checked Value
  | .term t => .ok t.toDocument
  | .literal l => .ok l.toDocument
  | .rule _ => .error (.unknownTerm "backchain.terms.Rule")
  | i => .error (.unknownTerm i.kind)

/-! ### Reading -/

/-- A field that has to be there. -/
def requiredField (name : String) (fields : List (Value × Value)) : Checked Value :=
  match Value.field? name fields with
  | some v => .ok v
  | none => .error (.shape (.missingField name))

/-- The fault of asking a value that is no object for a field. -/
def notSubscripted : Value → Fault
  | .str _ => .shape .stringPosition
  | .list _ => .shape .listPosition
  | v => .shape (.notSubscriptable v.kind)

/-- The variable of its document. -/
def Variable.ofFields (fields : List (Value × Value)) : Checked Variable :=
  (requiredField "name" fields).map fun name =>
    ⟨name, (Value.field? "serial" fields).getD (.int 0)⟩

namespace Term

mutual

/-- The term of a document. -/
def ofDocument : Value → Checked Term
  | .object fields => do
    let tag ← requiredField "type" fields
    match tag with
    | .str "var" => return .var (← Variable.ofFields fields)
    | .str "const" => return .const (← requiredField "symbol" fields)
    | .str "func" =>
      -- the arguments are read before the functor is asked for
      let args ← (argsOfFields fields).getD (.ok [])
      return .app (← requiredField "functor" fields) args
    | tag => do throw (.unknownTag (← textOrFault tag.bareText?))
  | v => .error (notSubscripted v)

/-- The terms under the field `args`, if it is there. -/
def argsOfFields : List (Value × Value) → Option (Checked (List Term))
  | [] => none
  | (key, v) :: rest =>
    if key.sameKey (.str "args") then some (argsOfValue v) else argsOfFields rest

/-- The terms of a sequence of documents. -/
def argsOfValue : Value → Checked (List Term)
  | .list vs => ofDocuments vs
  | .str s => if s.isEmpty then .ok [] else .error (.shape .stringPosition)
  | .object [] => .ok []
  | .object ((key, _) :: _) => .error (notSubscripted key)
  | v => .error (.shape (.notIterable v.kind))

/-- The terms of a list of documents. -/
def ofDocuments : List Value → Checked (List Term)
  | [] => .ok []
  | v :: vs => do
    let t ← ofDocument v
    let ts ← ofDocuments vs
    return t :: ts

end

end Term

/-- The literal of a document. -/
def Literal.ofDocument : Value → Checked Literal
  | .object fields => do
    let args ← match Value.field? "args" fields with
      | none => .ok []
      | some v => Term.argsOfValue v
    return ⟨← requiredField "predicate" fields, args⟩
  | v => .error (.shape (.noFields v.kind))

/-- The elements of a sequence of literal documents. -/
def literalDocuments : Value → Checked (List Value)
  | .list vs => .ok vs
  | .str s => if s.isEmpty then .ok [] else .error (.shape (.noFields "str"))
  | .object [] => .ok []
  | .object ((key, _) :: _) => .error (.shape (.noFields key.kind))
  | v => .error (.shape (.notIterable v.kind))

/-- The rule of a document. -/
def Rule.ofDocument : Value → Checked Rule
  | .object fields => do
    let head ← Literal.ofDocument (← requiredField "consequent" fields)
    let body ← match Value.field? "antecedents" fields with
      | none => .ok []
      | some v => literalDocuments v
    return ⟨head, ← body.mapM Literal.ofDocument⟩
  | v => .error (notSubscripted v)

/-- The elements of the list of facts or rules; absent and empty values of any
kind are no elements.  A string gives its characters, an object its keys. -/
def clauseDocuments (name : String) (fields : List (Value × Value)) : Checked (List Value) :=
  match Value.field? name fields with
  | none => .ok []
  | some v =>
    if !v.isTruthy then .ok [] else
    match v with
    | .list vs => .ok vs
    | .str s => .ok (s.toList.map fun c => .str c.toString)
    | .object fs => .ok (fs.map (·.1))
    | v => .error (.shape (.notIterable v.kind))

/-- The fault of reading a whole document for the fault of one of its parts. -/
def Fault.ofPart : Fault → Fault
  | .shape cause => .malformed cause
  | e => e

namespace KnowledgeBase

/-- Adds the fact of a document. -/
def addFactDocument (kb : KnowledgeBase) (v : Value) : Checked KnowledgeBase := do
  kb.addFact (.literal (← Literal.ofDocument v))

/-- Adds the rule of a document. -/
def addRuleDocument (kb : KnowledgeBase) (v : Value) : Checked KnowledgeBase := do
  return kb.addRule (← Rule.ofDocument v)

/-- The knowledge base of the fields of a document: the facts, then the rules. -/
def ofFields (fields : List (Value × Value)) : Checked KnowledgeBase := do
  let kb ← (← clauseDocuments "facts" fields).foldlM addFactDocument empty
  (← clauseDocuments "rules" fields).foldlM addRuleDocument kb

/-- The knowledge base of a document. -/
def ofDocument : Value → Checked KnowledgeBase
  | .object fields =>
    match ofFields fields with
    | .ok kb => .ok kb
    | .error e => .error e.ofPart
  | v => .error (.documentNotObject v.kind)

end KnowledgeBase

end HornSearch
