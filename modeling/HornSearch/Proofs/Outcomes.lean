/-
HornSearch/Proofs/Outcomes.lean

What the computations of the search come to, halted or not.  `ComesTo s n Q` is the claim
about a computation `s` from the serial `n` on: the source of serials stands at a whole
number in the end, everything that is visited is `Step.Sound`, and the outcome satisfies `Q`.
There is one rule for each way of building computations.

The invariant that is carried along is `InPlay p n ls b`: the literals and the bindings in play
meet a criterion, their serials are below `n`, and the bindings are acyclic.  The criterion is
one that fresh variables meet from `n` on (`Criterion.KeptFrom`), such as `Criterion.legible`.
`InPlay.join` and `InPlay.enter` say what is in play once a goal is unified with a fact or
with the head of a fresh copy.
-/
import HornSearch.Proofs.Courses
import HornSearch.Proofs.Nesting

namespace HornSearch

variable {α β : Type} {n m k : Int} {b c : Bindings} {ls pending : List Literal} {goal : Literal}
variable {p : Criterion}

/-! ### What is in play -/

/-- What meets the criterion is legible, and variables with serials from `n` on meet it. -/
structure Criterion.KeptFrom (p : Criterion) (n : Int) : Prop where
  legible : p.Implies .legible
  fresh : ∀ (name : String) (serial : Int), n ≤ serial → p.var ⟨.str name, .int serial⟩ = true

theorem Criterion.KeptFrom.mono (h : p.KeptFrom n) (hnm : n ≤ m) : p.KeptFrom m :=
  ⟨h.legible, fun name serial hserial => h.fresh name serial (hnm.trans hserial)⟩

theorem Criterion.KeptFrom.regular (h : p.KeptFrom n) : p.Implies .regular :=
  h.legible.trans legible_implies_regular

theorem Criterion.keptFrom_legible (n : Int) : Criterion.legible.KeptFrom n where
  legible := .refl _
  fresh _ _ _ := rfl

/-- The literals and the environment meet a criterion that is kept, with serials below `n`, and
the environment is acyclic. -/
structure InPlay (p : Criterion) (n : Int) (ls : List Literal) (b : Bindings) : Prop where
  kept : p.KeptFrom n
  literals : ∀ l ∈ ls, l.meets p = true
  within : ∀ l ∈ ls, l.Within n
  meets : b.Meets p
  bindings : b.Within n
  acyclic : b.Acyclic

theorem Bindings.Within.below_of_mentions (h : b.Within n) {v : Variable} (hv : b.Mentions v) :
    v.Below n := by
  obtain ⟨w, t, ht, rfl | hv⟩ := hv
  · exact (h.below v t ht).1
  · exact (h.below w t ht).2 v hv

theorem Bindings.Within.below_of_reaches (h : b.Within n) {v w : Variable} (hv : v.Below n)
    (hw : b.Reaches v w) : w.Below n := by
  rcases hw.cases_tail with rfl | ⟨u, -, t, ht, hwt⟩
  · exact hv
  · exact (h.below u t ht).2 w hwt

/-- Unification brings no syntax into play that does not meet the criterion. -/
theorem unifyLiterals_meets {l l' : Literal}
    (hvar : ∀ v, p.var v = true → v.isRegular = true) (hp : p.Implies .regular)
    (hl : l.meets p = true) (hl' : l'.meets p = true) (hb : b.Meets p)
    (h : unifyLiterals l l' b = .ok (some c)) : c.Meets p := by
  have hunified := unifyLiterals_unified (Literal.meets_mono hp hl) (Literal.meets_mono hp hl')
    (hb.mono hp) h
  exact hunified.meets rfl (.single hvar hl hl' hb)

/-- What a literal stands for meets what it and the bindings meet. -/
theorem Literal.meets_solution {l : Literal} (hp : p.Implies .regular) (hl : l.meets p = true)
    (hb : b.Meets p) (hac : b.Acyclic) : (l.instantiate b.solution).meets p = true := by
  refine meets_instantiate hl fun v hv => ?_
  have hvar := var_of_mem_occurrences hl hv
  exact hac.meets_solution (hb.mono hp) (fun _ _ => hb.meets) (hp.var v hvar) hvar

/-- A variant of a rule meets what the rule meets. -/
theorem FreshCopy.meets {rule copy : Rule} (h : FreshCopy rule copy ls b)
    (hvar : ∀ v, v.isRegular = true → p.var v = true) (hr : rule.meets p = true) :
    copy.meets p = true := by
  obtain ⟨ρ, rfl, -⟩ := h.isVariant
  apply Rule.meets_rename _ hr
  intro v hv
  exact hvar _ (h.regular _ (Rule.mem_occurrences_rename.2 ⟨v, hv, rfl⟩))

/-- A copy with serials from `n` on meets what the rule meets, if fresh variables do. -/
theorem Copied.meets {rule copy : Rule} (h : Copied rule copy n m) (hp : p.KeptFrom n)
    (hr : rule.meets p = true) : copy.meets p = true := by
  obtain ⟨ρ, hcopy, -⟩ := h.isVariant
  rw [hcopy]
  apply Rule.meets_rename _ hr
  intro v hv
  have hmem : ρ v ∈ copy.occurrences := hcopy ▸ Rule.mem_occurrences_rename.2 ⟨v, hv, rfl⟩
  have hregular := Rule.var_of_mem_occurrences (p := .regular) h.copy_regular hmem
  obtain ⟨name, serial, hv'⟩ := Variable.isRegular_iff.1 hregular
  obtain ⟨⟨k, hk, hle⟩, -⟩ := h.fresh _ hmem
  rw [hv'] at hk ⊢
  obtain rfl := Value.int.inj hk
  exact hp.fresh name serial hle

namespace InPlay

theorem mono (h : InPlay p n ls b) (hnm : n ≤ m) : InPlay p m ls b :=
  ⟨h.kept.mono hnm, h.literals, fun l hl => (h.within l hl).mono hnm, h.meets,
    h.bindings.mono hnm, h.acyclic⟩

theorem head (h : InPlay p n (goal :: ls) b) : goal.meets p = true ∧ goal.Within n :=
  ⟨h.literals goal List.mem_cons_self, h.within goal List.mem_cons_self⟩

theorem tail (h : InPlay p n (goal :: ls) b) : InPlay p n ls b :=
  ⟨h.kept, (List.forall_mem_cons.1 h.literals).2, (List.forall_mem_cons.1 h.within).2, h.meets,
    h.bindings, h.acyclic⟩

theorem alone (h : InPlay p n (goal :: ls) b) : InPlay p n [goal] b :=
  ⟨h.kept, List.forall_mem_singleton.2 h.head.1, List.forall_mem_singleton.2 h.head.2, h.meets,
    h.bindings, h.acyclic⟩

theorem legible (h : InPlay p n (goal :: ls) b) : goal.meets .legible = true ∧ b.Meets .legible :=
  ⟨Literal.meets_mono h.kept.legible h.head.1, h.meets.mono h.kept.legible⟩

/-- What is in play once a goal is unified with another literal. -/
theorem join (h : InPlay p n (goal :: pending) b) {l : Literal} (hl : l.meets p = true)
    (hwithin : l.Within n) (hunify : unifyLiterals goal l b = .ok (some c)) :
    InPlay p n pending c := by
  obtain ⟨hgoal, hgoalWithin⟩ := h.head
  have hjoined : Joined goal l b c :=
    ⟨hgoalWithin.regular, hwithin.regular, h.bindings.meets, hunify⟩
  refine ⟨h.kept, h.tail.literals, h.tail.within, ?_,
    hjoined.within hgoalWithin hwithin h.bindings, hjoined.acyclic h.acyclic⟩
  exact unifyLiterals_meets h.kept.legible.var h.kept.regular hgoal hl h.meets hunify

/-- A copy with serials from `n` on is fresh. -/
theorem freshCopy (h : InPlay p n ls b) {rule copy : Rule} (hcopy : Copied rule copy n m) :
    FreshCopy rule copy ls b where
  isVariant := hcopy.isVariant
  regular _ hv := Rule.var_of_mem_occurrences (p := .regular) hcopy.copy_regular hv
  literals v hv l hl hvl := by
    have hbelow := (h.within l hl).below v hvl
    exact (hbelow.before (hcopy.fresh v hv).1).ne rfl
  bindings v hv hvb := by
    have hbelow := h.bindings.below_of_mentions hvb
    exact (hbelow.before (hcopy.fresh v hv).1).ne rfl

/-- What is in play once a goal is unified with the head of a fresh copy. -/
theorem enter (h : InPlay p n (goal :: pending) b) {rule copy : Rule}
    (hr : rule.meets p = true) (hcopy : Copied rule copy n m)
    (hunify : unifyLiterals goal copy.head b = .ok (some c)) :
    InPlay p m (copy.body ++ pending) c := by
  obtain ⟨hhead, hbody⟩ := Rule.meets_iff.1 (hcopy.meets h.kept hr)
  have hc := (h.mono hcopy.lt.le).join hhead hcopy.head_within hunify
  refine ⟨hc.kept, ?_, ?_, hc.meets, hc.bindings, hc.acyclic⟩
  · exact List.forall_mem_append.2 ⟨hbody, hc.literals⟩
  · exact List.forall_mem_append.2 ⟨hcopy.body_within, hc.within⟩

/-- What a goal in play stands for meets the criterion, and its serials are below `n`. -/
theorem instantiate (h : InPlay p n (goal :: ls) b) :
    (goal.instantiate b.solution).meets p = true ∧ (goal.instantiate b.solution).Within n := by
  obtain ⟨hgoal, hwithin⟩ := h.head
  have hregular := h.bindings.meets
  have hmem : ∀ {v}, v ∈ goal.occurrences → v.isRegular = true :=
    Literal.var_of_mem_occurrences (p := .regular) hwithin.regular
  refine ⟨Literal.meets_solution h.kept.regular hgoal h.meets h.acyclic, ?_, ?_⟩
  · exact Literal.meets_solution (.refl _) hwithin.regular hregular h.acyclic
  · intro w hw
    obtain ⟨v, hv, hwv⟩ := Literal.mem_occurrences_instantiate.1 hw
    obtain ⟨hreaches, -⟩ := (h.acyclic.mem_occurrences_solution hregular (hmem hv)).1 hwv
    exact h.bindings.below_of_reaches (hwithin.below v hv) hreaches

end InPlay

/-! ### Numbers that are written -/

theorem Numeral.fits_iff {count n : Nat} : fits count n = true ↔ n < 10 ^ count := by
  induction count generalizing n with
  | zero => simp [fits]
  | succ count ih =>
    rw [fits, pow_succ]
    split
    · have hpow : 0 < 10 ^ count := Nat.pow_pos (by decide)
      simp only [true_iff]
      omega
    · rw [ih]
      omega

theorem Numeral.isWritten_iff {n : Int} : isWritten n = true ↔ n.natAbs < 10 ^ mostDigits :=
  fits_iff

/-- A whole number that is not negative. -/
def Value.isNatural : Value → Bool
  | .int n => decide (0 ≤ n)
  | _ => false

/-- Shown, but for serials that are too large. -/
def Criterion.drawn : Criterion :=
  ⟨fun v => v.isRegular && (v.serial.hasText || v.serial.isNatural), Criterion.shown.symbol,
    Value.isString⟩

theorem Criterion.drawn_implies_legible : drawn.Implies legible where
  var _ h := (Bool.and_eq_true_iff.1 h).1
  symbol := shown_implies_legible.symbol
  label _ h := h

theorem Criterion.shown_implies_drawn : shown.Implies drawn where
  var v h := by
    obtain ⟨hregular, htext⟩ := Bool.and_eq_true_iff.1 h
    exact Bool.and_eq_true_iff.2 ⟨hregular, by rw [htext, Bool.true_or]⟩
  symbol _ h := h
  label _ h := h

/-- Fresh variables have serials that are not negative. -/
theorem Criterion.keptFrom_drawn {n : Int} (hn : 0 ≤ n) : drawn.KeptFrom n where
  legible := drawn_implies_legible
  fresh name serial hserial := by
    have hnatural : (Value.int serial).isNatural = true := decide_eq_true (hn.trans hserial)
    exact Bool.and_eq_true_iff.2 ⟨rfl, Bool.or_eq_true_iff.2 (.inr hnatural)⟩

/-- A number below one that is just too long is written. -/
theorem Value.hasText_of_lt (hn : 0 ≤ n) (hlt : n < m) (hm : m ≤ 10 ^ Numeral.mostDigits) :
    (Value.int n).hasText = true := by
  have habs : (n.natAbs : Int) < (10 ^ Numeral.mostDigits : Nat) := by
    rw [Int.natAbs_of_nonneg hn]
    exact_mod_cast hlt.trans_le hm
  have hwritten : Numeral.isWritten n = true := Numeral.isWritten_iff.2 (by exact_mod_cast habs)
  rw [hasText, flaws, if_pos hwritten]
  rfl

/-- Serials that are not too large are written. -/
theorem Literal.shown_of_drawn {l : Literal} (h : l.meets .drawn = true) (hwithin : l.Within m)
    (hm : m ≤ 10 ^ Numeral.mostDigits) : l.meets .shown = true := by
  refine Term.meets_of_imp (p := .drawn) (fun v hv hdrawn => ?_) (fun _ h => h) (fun _ h => h) h
  obtain ⟨hregular, hserial⟩ := Bool.and_eq_true_iff.1 hdrawn
  refine Bool.and_eq_true_iff.2 ⟨hregular, ?_⟩
  rcases Bool.or_eq_true_iff.1 hserial with htext | hnatural
  · exact htext
  · obtain ⟨k, hk, hlt⟩ := hwithin.below v hv
    rw [hk] at hnatural ⊢
    exact Value.hasText_of_lt (of_decide_eq_true hnatural) hlt hm

/-- Everything that is in play in the beginning has a text, and so have the serials from `n` on
up to `m`. -/
structure IsPrinted (kb : KnowledgeBase) (goals : List Literal) (b : Bindings) (n m : Int) :
    Prop where
  kb : kb.Meets .shown
  goals : ∀ g ∈ goals, g.meets .shown = true
  start : b.Meets .shown
  first : 0 ≤ n
  last : m ≤ 10 ^ Numeral.mostDigits

/-- What is visited is legible, under legible and acyclic bindings. -/
def Step.Sound : Step → Prop
  | .visited goal _ b => goal.meets .legible = true ∧ b.Meets .legible ∧ b.Acyclic
  | .copied _ _ _ _ => True

/-! ### What a computation comes to -/

/-- From the serial `n` on, whatever becomes of the computation, the source stands at a
whole number in the end, the journal is sound, and the outcome satisfies `Q` together with
the serial that is next then. -/
def ComesTo (s : Journaled α) (n : Int) (Q : Int → Outcome α → Prop) : Prop :=
  ∀ trail, trail.source = ⟨.int n⟩ → ∃ m, n ≤ m ∧ (s.erase trail).2.source = ⟨.int m⟩ ∧
    (∀ step ∈ s.steps trail, step.Sound) ∧ Q m (s.erase trail).1

/-- Both outcomes are failures, or both are stopped by one fault. -/
inductive SameHalt : Outcome α → Outcome β → Prop where
  | failed : SameHalt .failed .failed
  | stopped (fault : Fault) : SameHalt (.stopped fault) (.stopped fault)

/-- What is made of an outcome if it is proved. -/
def Outcome.map (f : α → β) : Outcome α → Outcome β
  | .proved a => .proved (f a)
  | .failed => .failed
  | .stopped fault => .stopped fault

section Rules

open Journaled

variable {P Q : Int → Outcome α → Prop} {s other : Journaled α}

theorem ComesTo.mono (h : ComesTo s n P) (hPQ : ∀ m o, n ≤ m → P m o → Q m o) :
    ComesTo s n Q := by
  intro trail htrail
  obtain ⟨m, hnm, hm, hsound, hP⟩ := h trail htrail
  exact ⟨m, hnm, hm, hsound, hPQ m _ hnm hP⟩

theorem comesTo_lift {t : Search α} (hkeeps : t.KeepsSource) (hQ : ∀ trail, Q n (t trail).1) :
    ComesTo (lift t) n Q := by
  intro trail htrail
  refine ⟨n, le_rfl, (hkeeps trail).trans htrail, ?_, hQ trail⟩
  intro step hstep
  cases hstep

theorem comesTo_pure {a : α} (h : Q n (.proved a)) : ComesTo (pure a) n Q :=
  comesTo_lift (fun _ => rfl) fun _ => h

theorem comesTo_fail (h : Q n .failed) : ComesTo (lift Search.fail) n Q :=
  comesTo_lift (fun _ => rfl) fun _ => h

theorem comesTo_stop {fault : Fault} (h : Q n (.stopped fault)) :
    ComesTo (lift (Search.stop fault)) n Q :=
  comesTo_lift (fun _ => rfl) fun _ => h

theorem comesTo_visited {depth : Nat} (h : (Step.visited goal depth b).Sound) :
    ComesTo (note (.visited goal depth b)) n fun m o => m = n ∧ o = .proved () := by
  intro trail htrail
  exact ⟨n, le_rfl, htrail, List.forall_mem_singleton.2 h, rfl, rfl⟩

/-- Recording a legible event is done at once. -/
theorem comesTo_record {event : Event} (h : event.Legible) :
    ComesTo (lift (Search.record event)) n fun m o => m = n ∧ o = .proved () := by
  refine comesTo_lift (Search.keepsSource_record event) fun trail => ⟨rfl, ?_⟩
  obtain ⟨events, hevents⟩ := Search.record_eq h trail
  rw [hevents]

theorem comesTo_ofChecked {c : Checked α} {a : α} (h : c = .ok a) :
    ComesTo (lift (Search.ofChecked c)) n fun m o => m = n ∧ o = .proved a := by
  subst h
  exact comesTo_pure ⟨rfl, rfl⟩

/-- One computation after another: the second goes on from what the first has proved, and
the first may halt. -/
theorem ComesTo.bind {Q : Int → Outcome β → Prop} {next : α → Journaled β}
    (hs : ComesTo s n P) (hnext : ∀ m a, n ≤ m → P m (.proved a) → ComesTo (next a) m Q)
    (hhalt : ∀ m (o : Outcome α) o', n ≤ m → P m o → SameHalt o o' → Q m o') :
    ComesTo (s >>= next) n Q := by
  intro trail htrail
  obtain ⟨k, hnk, hk, hsound, hP⟩ := hs trail htrail
  show ∃ m, n ≤ m ∧ (Journaled.bind s next trail).1.2.source = ⟨.int m⟩ ∧
    (∀ step ∈ (Journaled.bind s next trail).2, step.Sound) ∧
    Q m (Journaled.bind s next trail).1.1
  unfold erase steps at *
  rcases e : s trail with ⟨⟨a | - | fault, t⟩, js⟩
  · rw [e] at hk hsound hP
    obtain ⟨m, hkm, hm, hsound', hQ⟩ := hnext k a hnk hP t hk
    simp only [Journaled.bind, e]
    exact ⟨m, hnk.trans hkm, hm, List.forall_mem_append.2 ⟨hsound, hsound'⟩, hQ⟩
  · rw [e] at hk hsound hP
    simp only [Journaled.bind, e]
    exact ⟨k, hnk, hk, hsound, hhalt k _ _ hnk hP .failed⟩
  · rw [e] at hk hsound hP
    simp only [Journaled.bind, e]
    exact ⟨k, hnk, hk, hsound, hhalt k _ _ hnk hP (.stopped fault)⟩

/-- A computation that does no more than give a value. -/
theorem ComesTo.andThen {Q : Int → Outcome β → Prop} {next : α → Journaled β} {a : α}
    (hs : ComesTo s n fun m o => m = n ∧ o = .proved a) (hnext : ComesTo (next a) n Q) :
    ComesTo (s >>= next) n Q := by
  refine hs.bind ?_ ?_
  · rintro m a' - ⟨rfl, ha⟩
    obtain rfl := Outcome.proved.inj ha
    exact hnext
  · rintro m o o' - ⟨-, rfl⟩ hhalt
    cases hhalt

/-- Nothing comes after a fault. -/
theorem comesTo_stop_bind {Q : Int → Outcome β → Prop} {next : α → Journaled β} {fault : Fault}
    (h : Q n (.stopped fault)) : ComesTo (lift (Search.stop fault) >>= next) n Q := by
  have hstop : ComesTo (lift (Search.stop fault)) n
      fun m (o : Outcome α) => m = n ∧ o = .stopped fault :=
    comesTo_stop ⟨rfl, rfl⟩
  refine hstop.bind ?_ ?_
  · rintro m a - ⟨-, ha⟩
    cases ha
  · rintro m o o' - ⟨rfl, rfl⟩ hhalt
    cases hhalt
    exact h

/-- A computation whose result is only turned into another one. -/
theorem ComesTo.map {Q : Int → Outcome β → Prop} {next : α → Journaled β} {f : α → β}
    (hs : ComesTo s n P) (hf : ∀ a, next a = pure (f a))
    (hPQ : ∀ m o, n ≤ m → P m o → Q m (o.map f)) : ComesTo (s >>= next) n Q := by
  refine hs.bind ?_ ?_
  · intro m a hnm hP
    rw [hf]
    exact comesTo_pure (hPQ m _ hnm hP)
  · rintro m o o' hnm hP hhalt
    cases hhalt with
    | failed => exact hPQ m _ hnm hP
    | stopped fault => exact hPQ m _ hnm hP

theorem ComesTo.orElse (hs : ComesTo s n P) (hother : ∀ m, n ≤ m → P m .failed → ComesTo other m Q)
    (hpass : ∀ m o, n ≤ m → P m o → o ≠ .failed → Q m o) :
    ComesTo (Journaled.orElse s other) n Q := by
  intro trail htrail
  obtain ⟨k, hnk, hk, hsound, hP⟩ := hs trail htrail
  unfold erase steps at *
  rcases e : s trail with ⟨⟨a | - | fault, t⟩, js⟩
  · rw [e] at hk hsound hP
    simp only [Journaled.orElse, e]
    exact ⟨k, hnk, hk, hsound, hpass k _ hnk hP (by simp)⟩
  -- a failure goes on to the other one from where the source stands then
  · rw [e] at hk hsound hP
    obtain ⟨m, hkm, hm, hsound', hQ⟩ := hother k hnk hP t hk
    simp only [Journaled.orElse, e]
    exact ⟨m, hnk.trans hkm, hm, List.forall_mem_append.2 ⟨hsound, hsound'⟩, hQ⟩
  · rw [e] at hk hsound hP
    simp only [Journaled.orElse, e]
    exact ⟨k, hnk, hk, hsound, hpass k _ hnk hP (by simp)⟩

/-- Legible events may be recorded or not. -/
theorem ComesTo.recordIf {r : Bool} {event : Event} (he : event.Legible) (h : ComesTo s n Q) :
    ComesTo (if r = true then (do lift (Search.record event); s) else s) n Q := by
  cases r with
  | false => exact h
  | true => exact (comesTo_record he).andThen h

/-- Copying a regular rule always succeeds. -/
theorem comesTo_copy {items : List Item} {rule : Rule} (hr : rule.meets .regular = true) :
    ComesTo (copy goal items b rule) n fun m o =>
      ∃ copy, o = .proved copy ∧ Copied rule copy n m := by
  intro trail htrail
  obtain ⟨ρ, m, hcopy, hlt, -⟩ := Rule.standardizeApart_eq hr n
  have hfresh : Search.freshCopy rule trail =
      (.proved (rule.rename ρ), { trail with source := ⟨.int m⟩ }) := by
    rw [Search.freshCopy, htrail, hcopy]
  have hrun : Journaled.copy goal items b rule trail =
      ((.proved (rule.rename ρ), { trail with source := ⟨.int m⟩ }),
        [.copied goal items b (rule.rename ρ)]) := by
    show Journaled.bind (lift (Search.freshCopy rule)) _ trail = _
    simp only [Journaled.bind, lift, hfresh]
    rfl
  unfold erase steps
  rw [hrun]
  exact ⟨m, hlt.le, rfl, List.forall_mem_singleton.2 trivial, _, rfl, hr, hcopy⟩

end Rules

end HornSearch
