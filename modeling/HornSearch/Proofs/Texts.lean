/-
HornSearch/Proofs/Texts.lean

Syntax that has a text.  A search words its events, and the goal that the depth limit stops it
at.  Two things can be in the way of a text (`Value.flaws`), and they are set apart here.  A
literal that is no string is a matter of what constants quote, and a criterion keeps it out
of a search for good.  A whole number that is too long may come up in any search, since the
serials of fresh copies rise.

* `Criterion.legible`: regular, and no symbol quotes a literal that is no string;
* `Criterion.shown`: regular, and every symbol and every serial has a text;
* `Term.isFreeOf_toValue`, `Literal.isFreeOf_toValue`, `Rule.isFreeOf_toValue`: nothing is in
  the way of the text of syntax that is not in the way of a part of it;
* `Event.failsWith_wording`: if an event about legible syntax has no wording, then a number in
  it is too long.

Criteria are compared by `Criterion.Implies`.
-/
import HornSearch.Search.Trail
import HornSearch.Proofs.Environment

namespace HornSearch

variable {p q : Criterion} {flaw : TextFlaw}

/-! ### Stronger and weaker criteria -/

/-- What meets the first criterion meets the second. -/
structure Criterion.Implies (p q : Criterion) : Prop where
  var : ∀ v, p.var v = true → q.var v = true
  symbol : ∀ a, p.symbol a = true → q.symbol a = true
  label : ∀ f, p.label f = true → q.label f = true

theorem Criterion.Implies.refl (p : Criterion) : p.Implies p :=
  ⟨fun _ h => h, fun _ h => h, fun _ h => h⟩

theorem Criterion.Implies.trans {r : Criterion} (hpq : p.Implies q) (hqr : q.Implies r) :
    p.Implies r where
  var v h := hqr.var v (hpq.var v h)
  symbol a h := hqr.symbol a (hpq.symbol a h)
  label f h := hqr.label f (hpq.label f h)

theorem Criterion.definite_implies_regular : definite.Implies regular where
  var _ h := h
  symbol _ h := (Bool.and_eq_true_iff.1 h).1
  label _ h := h

theorem Term.meets_mono {t : Term} (h : p.Implies q) (ht : t.meets p = true) :
    t.meets q = true :=
  meets_of_imp (fun v _ => h.var v) h.symbol h.label ht

theorem Literal.meets_mono {l : Literal} (h : p.Implies q) (hl : l.meets p = true) :
    l.meets q = true :=
  Term.meets_mono h hl

theorem Rule.meets_mono {r : Rule} (h : p.Implies q) (hr : r.meets p = true) :
    r.meets q = true := by
  obtain ⟨hhead, hbody⟩ := meets_iff.1 hr
  rw [meets_iff]
  exact ⟨Literal.meets_mono h hhead, fun l hl => Literal.meets_mono h (hbody l hl)⟩

theorem Bindings.Meets.mono {b : Bindings} (hb : b.Meets p) (h : p.Implies q) : b.Meets q where
  typed e he := by
    obtain ⟨v, t, heq, hv, ht⟩ := hb.typed e he
    exact ⟨v, t, heq, hv, Term.meets_mono h ht⟩
  nodup := hb.nodup

/-! ### What is in the way of a text -/

/-- The least number that is too long to be written, `10 ^ 4300`. -/
def Numeral.huge : Nat := Nat.pow (Nat.pow 10 215) 20

theorem Numeral.isWritten_huge : isWritten huge = false := by decide +kernel

namespace Value

variable {a : Value} {as : List Value} {text : String}

theorem mem_flawsOfAll_iff : flaw ∈ flawsOfAll as ↔ ∃ a ∈ as, flaw ∈ a.flaws := by
  induction as with
  | nil => simp [flawsOfAll]
  | cons a as ih => simp [flawsOfAll, ih]

theorem mem_flawsHeadLast_iff : flaw ∈ flawsHeadLast as ↔ ∃ a ∈ as, flaw ∈ a.flaws := by
  cases as with
  | nil => simp [flawsHeadLast]
  | cons a as =>
    rw [flawsHeadLast, List.mem_append, mem_flawsOfAll_iff, List.exists_mem_cons_iff]
    exact or_comm

theorem mem_flawsOfFields_iff {fs : List (Value × Value)} :
    flaw ∈ flawsOfFields fs ↔ ∃ f ∈ fs, flaw ∈ f.1.flaws ∨ flaw ∈ f.2.flaws := by
  induction fs with
  | nil => simp [flawsOfFields]
  | cons f fs ih => simp [flawsOfFields, ih, or_assoc]

/-- Whether a flaw is not in the way of the text of a value. -/
def isFreeOf (flaw : TextFlaw) (a : Value) : Bool := !a.flaws.contains flaw

theorem isFreeOf_iff : a.isFreeOf flaw = true ↔ flaw ∉ a.flaws := by
  simp [isFreeOf]

theorem hasText_iff : a.hasText = true ↔ ∀ flaw, a.isFreeOf flaw = true := by
  simp [hasText, isFreeOf, List.eq_nil_iff_forall_not_mem]

theorem isFreeOf_of_isString (h : a.isString = true) : a.isFreeOf flaw = true := by
  cases a <;> simp_all [isString, string?, isFreeOf, flaws]

theorem isFreeOf_list_iff :
    (list as).isFreeOf flaw = true ↔ ∀ a ∈ as, a.isFreeOf flaw = true := by
  simp [isFreeOf_iff, flaws, mem_flawsOfAll_iff]

theorem isFreeOf_tuple_iff :
    (tuple as).isFreeOf flaw = true ↔ ∀ a ∈ as, a.isFreeOf flaw = true := by
  simp [isFreeOf_iff, flaws, mem_flawsOfAll_iff]

theorem isFreeOf_object_iff {fs : List (Value × Value)} : (object fs).isFreeOf flaw = true ↔
    ∀ f ∈ fs, f.1.isFreeOf flaw = true ∧ f.2.isFreeOf flaw = true := by
  simp only [isFreeOf_iff, flaws, mem_flawsOfFields_iff, not_exists, not_and, not_or]

/-- Syntax whose parts are free of a flaw is; of a literal without arguments it is asked that
its predicate is a string. -/
theorem isFreeOf_quoted {shape : Shape} (h : ∀ a ∈ as, a.isFreeOf flaw = true)
    (hliteral : ∀ a, shape = .literal → as = [a] → a.isString = true) :
    (quoted shape as).isFreeOf flaw = true := by
  have hparts : ¬ ∃ a ∈ as, flaw ∈ a.flaws := by
    rintro ⟨a, ha, hflaw⟩
    exact isFreeOf_iff.1 (h a ha) hflaw
  have hall : flaw ∉ flawsOfAll as := mt mem_flawsOfAll_iff.1 hparts
  have hheadLast : flaw ∉ flawsHeadLast as := mt mem_flawsHeadLast_iff.1 hparts
  rw [isFreeOf_iff]
  cases shape with
  | var =>
    rw [flaws]
    · exact hall
    all_goals simp
  | const =>
    rw [flaws]
    · exact hall
    all_goals simp
  | app => rwa [flaws]
  | rule => rwa [flaws]
  | literal =>
    match as, hliteral, hheadLast with
    | [], _, hheadLast => simp [flaws, flawsHeadLast]
    | [predicate], hliteral, _ =>
      have hstring : predicate.string?.isSome = true := hliteral predicate rfl rfl
      simp [flaws, hstring]
    | predicate :: arg :: args, _, hheadLast =>
      rw [flaws]
      · exact hheadLast
      · simp

/-- Nothing but a number is in the way of the text of a plain value. -/
theorem isFreeOf_of_isPlain (h : a.isPlain = true) : a.isFreeOf .notString = true := by
  induction a using induct with
  | int n =>
    rw [isFreeOf_iff, flaws]
    split <;> simp
  | list as ih =>
    rw [isPlain, arePlain_iff] at h
    exact isFreeOf_list_iff.2 fun a ha => ih a ha (h a ha)
  | tuple as ih =>
    rw [isPlain, arePlain_iff] at h
    exact isFreeOf_tuple_iff.2 fun a ha => ih a ha (h a ha)
  | object fs ih =>
    rw [isPlain, arePlainFields_iff] at h
    exact isFreeOf_object_iff.2 fun f hf => ⟨(ih f hf).1 (h f hf).1, (ih f hf).2 (h f hf).2⟩
  | quoted shape parts => cases h
  | _ => rfl

/-! ### Texts that are there -/

theorem shownAs_eq (h : a.hasText = true) : a.shownAs text = .ok text := by
  rw [shownAs, List.isEmpty_iff.1 h]

theorem text?_eq (h : a.hasText = true) : a.text? = .ok a.quotedText := shownAs_eq h

theorem shownAs_huge : (int Numeral.huge).shownAs text = .error .tooLong := by
  rw [shownAs, flaws, if_neg (Bool.eq_false_iff.1 Numeral.isWritten_huge)]

theorem onlyGives_shownAs : OnlyGives (a.shownAs text) text := by
  rw [shownAs]
  cases a.flaws with
  | nil => exact onlyGives_ok _
  | cons flaw flaws => exact onlyGives_error _

/-- A text is only missed for what is in its way. -/
theorem failsWith_shownAs :
    FailsWith (fun flaw => a.isFreeOf flaw = false) (a.shownAs text) := by
  rw [shownAs]
  cases hflaws : a.flaws with
  | nil => exact failsWith_ok _
  | cons flaw flaws =>
    refine failsWith_error (Bool.eq_false_iff.2 (mt isFreeOf_iff.1 (not_not.2 ?_)))
    rw [hflaws]
    exact List.mem_cons_self

/-- If only numbers can be in the way of a text, then it is there or a number is too long. -/
theorem failsWith_tooLong (h : a.isFreeOf .notString = true) :
    FailsWith (· = .tooLong) (a.shownAs text) := by
  intro flaw hflaw
  cases flaw with
  | tooLong => rfl
  | notString => cases h.symm.trans (failsWith_shownAs _ hflaw)

end Value

theorem onlyGives_textOrFault {x : Except TextFlaw String} {text : String}
    (h : OnlyGives x text) : OnlyGives (textOrFault x) text := by
  cases x with
  | error flaw => exact onlyGives_error _
  | ok text' =>
    obtain rfl := h text' rfl
    exact onlyGives_ok _

/-! ### Syntax -/

namespace Criterion

/-- One thing that is asked of names, serials, symbols and labels alike. -/
def throughout (P : Value → Bool) : Criterion := ⟨fun v => P v.name && P v.serial, P, P⟩

/-- A flaw is in the way of no name, serial, symbol or label. -/
def freeOf (flaw : TextFlaw) : Criterion := throughout (Value.isFreeOf flaw)

/-- Regular, and no symbol quotes a literal that is no string. -/
def legible : Criterion :=
  ⟨Variable.isRegular, fun a => a.isProper && a.isFreeOf .notString, Value.isString⟩

/-- Regular, and every symbol and every serial has a text. -/
def shown : Criterion :=
  ⟨fun v => v.isRegular && v.serial.hasText, fun a => a.isProper && a.hasText, Value.isString⟩

theorem legible_implies_regular : legible.Implies regular where
  var _ h := h
  symbol _ h := (Bool.and_eq_true_iff.1 h).1
  label _ h := h

theorem legible_implies_freeOf : legible.Implies (freeOf .notString) where
  var v h := by
    obtain ⟨s, n, rfl⟩ := Variable.isRegular_iff.1 h
    exact Bool.and_eq_true_iff.2 ⟨rfl, Value.isFreeOf_of_isPlain rfl⟩
  symbol _ h := (Bool.and_eq_true_iff.1 h).2
  label _ h := Value.isFreeOf_of_isString h

theorem shown_implies_legible : shown.Implies legible where
  var _ h := (Bool.and_eq_true_iff.1 h).1
  symbol _ h := by
    obtain ⟨hproper, htext⟩ := Bool.and_eq_true_iff.1 h
    exact Bool.and_eq_true_iff.2 ⟨hproper, Value.hasText_iff.1 htext _⟩
  label _ h := h

theorem shown_implies_regular : shown.Implies regular :=
  shown_implies_legible.trans legible_implies_regular

theorem shown_implies_freeOf (flaw : TextFlaw) : shown.Implies (freeOf flaw) where
  var v h := by
    obtain ⟨hregular, htext⟩ := Bool.and_eq_true_iff.1 h
    obtain ⟨s, n, rfl⟩ := Variable.isRegular_iff.1 hregular
    exact Bool.and_eq_true_iff.2 ⟨rfl, Value.hasText_iff.1 htext flaw⟩
  symbol _ h := Value.hasText_iff.1 (Bool.and_eq_true_iff.1 h).2 flaw
  label _ h := Value.isFreeOf_of_isString h

end Criterion

theorem Term.toValues_eq (ts : List Term) : toValues ts = ts.map toValue := by
  induction ts with
  | nil => rfl
  | cons t ts ih => rw [toValues, ih, List.map_cons]

/-- **What is in the way of the text of a term** is in the way of a part of it. -/
theorem Term.isFreeOf_toValue {t : Term} (h : t.meets (.freeOf flaw) = true) :
    t.toValue.isFreeOf flaw = true := by
  induction t using induct with
  | var v =>
    obtain ⟨hname, hserial⟩ := Bool.and_eq_true_iff.1 h
    exact Value.isFreeOf_quoted (by simp [hname, hserial]) (by simp)
  | const a =>
    have ha : a.isFreeOf flaw = true := h
    exact Value.isFreeOf_quoted (by simp [ha]) (by simp)
  | app f ts ih =>
    obtain ⟨hf, hts⟩ := meets_app_iff.1 h
    refine Value.isFreeOf_quoted (List.forall_mem_cons.2 ⟨hf, ?_⟩) (by simp)
    rw [toValues_eq, List.forall_mem_map]
    exact fun t ht => ih t ht (hts t ht)

/-- So it is with literals that have arguments, or a string for a predicate. -/
theorem Literal.isFreeOf_toValue {l : Literal} (h : l.meets (.freeOf flaw) = true)
    (hstring : l.args = [] → l.predicate.isString = true) : l.toValue.isFreeOf flaw = true := by
  obtain ⟨hpredicate, hargs⟩ := meets_iff.1 h
  refine Value.isFreeOf_quoted (List.forall_mem_cons.2 ⟨hpredicate, ?_⟩) ?_
  · rw [Term.toValues_eq, List.forall_mem_map]
    exact fun t ht => Term.isFreeOf_toValue (hargs t ht)
  · intro a _ hone
    obtain ⟨rfl, hnone⟩ := List.cons.inj hone
    rw [Term.toValues_eq, List.map_eq_nil_iff] at hnone
    exact hstring hnone

theorem Rule.isFreeOf_toValue {r : Rule} (h : r.meets (.freeOf flaw) = true)
    (hstrings : ∀ l ∈ r.head :: r.body, l.predicate.isString = true) :
    r.toValue.isFreeOf flaw = true := by
  obtain ⟨hhead, hbody⟩ := meets_iff.1 h
  obtain ⟨hstring, hstrings⟩ := List.forall_mem_cons.1 hstrings
  refine Value.isFreeOf_quoted (List.forall_mem_cons.2 ⟨?_, ?_⟩) (by simp)
  · exact Literal.isFreeOf_toValue hhead fun _ => hstring
  · rw [List.forall_mem_map]
    exact fun l hl => Literal.isFreeOf_toValue (hbody l hl) fun _ => hstrings l hl

/-- What is asked of the criterion is asked of the label too. -/
theorem Literal.isString_predicate {l : Literal} (h : l.meets .regular = true) :
    l.predicate.isString = true :=
  (meets_iff.1 h).1

theorem Rule.isString_predicates {r : Rule} (h : r.meets .regular = true) :
    ∀ l ∈ r.head :: r.body, l.predicate.isString = true := by
  obtain ⟨hhead, hbody⟩ := meets_iff.1 h
  exact List.forall_mem_cons.2 ⟨Literal.isString_predicate hhead,
    fun l hl => Literal.isString_predicate (hbody l hl)⟩

/-- Nothing but a number is in the way of the text of legible syntax. -/
theorem Literal.isFreeOf_of_legible {l : Literal} (h : l.meets .legible = true) :
    l.toValue.isFreeOf .notString = true :=
  isFreeOf_toValue (meets_mono Criterion.legible_implies_freeOf h) fun _ =>
    isString_predicate (meets_mono Criterion.legible_implies_regular h)

theorem Rule.isFreeOf_of_legible {r : Rule} (h : r.meets .legible = true) :
    r.toValue.isFreeOf .notString = true :=
  isFreeOf_toValue (meets_mono Criterion.legible_implies_freeOf h)
    (isString_predicates (meets_mono Criterion.legible_implies_regular h))

/-- **Shown syntax has a text.** -/
theorem Term.hasText_toValue {t : Term} (h : t.meets .shown = true) :
    t.toValue.hasText = true :=
  Value.hasText_iff.2 fun flaw =>
    isFreeOf_toValue (meets_mono (Criterion.shown_implies_freeOf flaw) h)

theorem Literal.hasText_toValue {l : Literal} (h : l.meets .shown = true) :
    l.toValue.hasText = true :=
  Value.hasText_iff.2 fun flaw =>
    isFreeOf_toValue (meets_mono (Criterion.shown_implies_freeOf flaw) h) fun _ =>
      isString_predicate (meets_mono Criterion.shown_implies_regular h)

theorem Rule.hasText_toValue {r : Rule} (h : r.meets .shown = true) :
    r.toValue.hasText = true :=
  Value.hasText_iff.2 fun flaw =>
    isFreeOf_toValue (meets_mono (Criterion.shown_implies_freeOf flaw) h)
      (isString_predicates (meets_mono Criterion.shown_implies_regular h))

/-! ### Events -/

/-- The literals and rules of the event are legible. -/
def Event.Legible : Event → Prop
  | .loaded _ _ => True
  | .tried goal _ => ∃ l : Literal, goal = .literal l ∧ l.meets .legible = true
  | .closed goal fact =>
    (∃ l : Literal, goal = .literal l ∧ l.meets .legible = true) ∧ fact.meets .legible = true
  | .compared goal rule _ =>
    (∃ l : Literal, goal = .literal l ∧ l.meets .legible = true) ∧ rule.meets .legible = true
  | .failed goal _ => ∃ l : Literal, goal = .literal l ∧ l.meets .legible = true
  | .unproved goals => ∃ ls : List Literal, goals = ls.map .literal ∧
      ∀ l ∈ ls, l.meets .legible = true

theorem Event.failsWith_numberText (n : Nat) : FailsWith (· = .tooLong) (numberText? n) :=
  Value.failsWith_tooLong (Value.isFreeOf_of_isPlain rfl)

/-- **Nothing but a number is in the way of the wording** of a legible event. -/
theorem Event.failsWith_wording {e : Event} (h : e.Legible) :
    FailsWith (· = .tooLong) e.wording := by
  have hgoal : ∀ {l : Literal}, l.meets .legible = true →
      FailsWith (· = .tooLong) (Item.literal l).text? :=
    fun hl => Value.failsWith_tooLong (Literal.isFreeOf_of_legible hl)
  cases e with
  | loaded facts rules =>
    exact (failsWith_numberText _).bind fun _ _ => (failsWith_numberText _).bind fun _ _ =>
      failsWith_ok _
  | tried goal depth =>
    obtain ⟨l, rfl, hl⟩ := h
    exact (hgoal hl).bind fun _ _ => (failsWith_numberText _).bind fun _ _ => failsWith_ok _
  | closed goal fact =>
    obtain ⟨⟨l, rfl, hl⟩, hfact⟩ := h
    exact (hgoal hl).bind fun _ _ => (hgoal hfact).bind fun _ _ => failsWith_ok _
  | compared goal rule unified =>
    obtain ⟨⟨l, rfl, hl⟩, hrule⟩ := h
    have htext : FailsWith (· = .tooLong) rule.text? :=
      Value.failsWith_tooLong (Rule.isFreeOf_of_legible hrule)
    exact (hgoal hl).bind fun _ _ => htext.bind fun _ _ => failsWith_ok _
  | failed goal depth =>
    obtain ⟨l, rfl, hl⟩ := h
    exact (hgoal hl).bind fun _ _ => (failsWith_numberText _).bind fun _ _ => failsWith_ok _
  | unproved goals =>
    obtain ⟨ls, rfl, hls⟩ := h
    have hvalues : Item.toValues (ls.map .literal) = ls.map Literal.toValue := by
      clear hls
      induction ls with
      | nil => rfl
      | cons l ls ih => rw [List.map_cons, Item.toValues, ih, Item.toValue, List.map_cons]
    have hfree : (Item.list (ls.map .literal)).toValue.isFreeOf .notString = true := by
      rw [Item.toValue, hvalues]
      refine Value.isFreeOf_list_iff.2 (List.forall_mem_map.2 fun l hl => ?_)
      exact Literal.isFreeOf_of_legible (hls l hl)
    have htext : FailsWith (· = .tooLong) (Item.list (ls.map .literal)).text? :=
      Value.failsWith_tooLong hfree
    exact htext.bind fun _ _ => failsWith_ok _

/-- Recording a legible event never stops a search. -/
theorem Search.record_eq {e : Event} (h : e.Legible) (trail : Trail) :
    ∃ events, Search.record e trail = (.proved (), { trail with events }) := by
  unfold Search.record
  split
  · exact ⟨trail.events, rfl⟩
  · split
    · next hwording => cases Event.failsWith_wording h _ hwording
    · exact ⟨_, rfl⟩

end HornSearch
