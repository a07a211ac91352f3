/-
HornSearch/Proofs/BoundedSearch.lean

A search with a depth limit always ends, and only the limit can stop it.  More nesting than
the limit is enough for it, however large the knowledge base is and wherever its rules lead
(`exists_bounded`), and neither unification nor substitution is ever stopped on the way.

That asks for legible syntax, which leaves constants a wide choice: any plain value will do,
lists, objects and NaN among them (`Criterion.plain_implies_legible`), although a list can be
no part of a key and a NaN does not equal itself.

A whole number can be too long to be written, and then so is a goal with it.  If the limit
stops the search there, it is by the fault of the number (`bounded_circle_unwritten`).  Numbers
are written if the syntax is `Criterion.shown` to begin with and the serials of fresh copies do
not rise too high (`IsPrinted`); then the fault is that of the limit (`depthLimit_of_isPrinted`).
-/
import HornSearch.Proofs.DepthGuard

namespace HornSearch

/-! ### Plain constants -/

/-- String labels, string names, whole serials, and any plain value as a constant: null, truth
values, numbers, strings, lists and objects. -/
def Criterion.plain : Criterion :=
  ⟨Variable.isRegular, fun a => a.isProper && a.isPlain, Value.isString⟩

theorem Criterion.plain_implies_legible : plain.Implies legible where
  var _ h := h
  symbol _ h := by
    obtain ⟨hproper, hplain⟩ := Bool.and_eq_true_iff.1 h
    exact Bool.and_eq_true_iff.2 ⟨hproper, Value.isFreeOf_of_isPlain hplain⟩
  label _ h := h

section Bounded

open Resolver

variable {kb : KnowledgeBase} {settings : Settings} {query : Item} {goals : List Literal}
variable {b : Bindings} {trail : Trail} {n m : Int} {N levels : Nat}

/-- Whatever is written with plain constants can be asked. -/
theorem WellPosed.of_plain (hkb : kb.Meets .plain)
    (hquery : goalsOf query = .ok (goals.map .literal))
    (hgoals : ∀ g ∈ goals, g.meets .plain = true) (hb : b.Meets .plain) (hac : b.Acyclic) :
    WellPosed kb query goals b where
  kb := hkb.mono Criterion.plain_implies_legible
  query := hquery
  goals g hg := Literal.meets_mono Criterion.plain_implies_legible (hgoals g hg)
  start := hb.mono Criterion.plain_implies_legible
  acyclic := hac

/-! ### The search ends -/

/-- A search is given more nesting than its limit. -/
theorem exists_bounded (h : WellPosed kb query goals b) (htrail : trail.source = ⟨.int n⟩)
    (hN : settings.maxDepth = some N) :
    ∃ r, Ends kb settings query b trail r ∧
      ((∃ tree, r.1 = .proved tree) ∨ ∃ l, StoppedAt N l r.1) ∧
      ∀ levels, N < levels → prove kb settings levels query b trail = r := by
  have hsettings : settings.limited (some N) = settings := by
    rw [← hN]
    rfl
  have hends := proved_or_stopped settings h htrail (Nat.lt_succ_self N)
  rw [hsettings] at hends
  have hne : (prove kb settings (N + 1) query b trail).1 ≠ .stopped .endless := by
    intro hendless
    rcases hends with ⟨tree, htree⟩ | ⟨l, hl⟩
    · cases hendless.symm.trans htree
    · exact hl.ne_endless hendless
  exact ⟨_, ⟨N + 1, rfl, hne⟩, hends, fun levels hlt => prove_eq_of_le rfl hne hlt⟩

/-- **Where all numbers are written**, the limit stops a search by its own fault. -/
theorem depthLimit_of_isPrinted (hac : b.Acyclic)
    (hquery : goalsOf query = .ok (goals.map .literal)) (htrail : trail.source = ⟨.int n⟩)
    (hN : settings.maxDepth = some N)
    (hm : (prove kb settings levels query b trail).2.source = ⟨.int m⟩)
    (hlimit : (Value.int N).hasText = true) (h : IsPrinted kb goals b n m) {l : Literal}
    (hl : StoppedAt N l (prove kb settings levels query b trail).1) :
    (prove kb settings levels query b trail).1 = .stopped (.depthLimit N l) := by
  have hcomes : ComesTo (Journaled.prove kb settings levels query b) n _ :=
    comesTo_prove (Criterion.keptFrom_drawn h.first)
      (h.kb.mono Criterion.shown_implies_drawn) hquery
      (fun g hg => Literal.meets_mono Criterion.shown_implies_drawn (h.goals g hg))
      (h.start.mono Criterion.shown_implies_drawn) hac
  obtain ⟨k, -, hk, -, e, -, hreports, hplay⟩ := hcomes trail htrail
  rw [Journaled.erase_prove] at hk hreports
  obtain rfl : m = k := by
    rw [hm] at hk
    exact Value.int.inj (SerialSource.mk.inj hk)
  obtain ⟨fault, hfault, ho⟩ := hl
  rw [ho] at hreports ⊢
  cases hreports with
  | tooDeep hmax hfault' =>
    obtain rfl := Option.some.inj (hN.symm.trans hmax)
    obtain ⟨hdrawn, hwithin⟩ := InPlay.instantiate hplay
    obtain rfl := hfault'.eq_depthLimit hlimit
      (Literal.hasText_toValue (Literal.shown_of_drawn hdrawn hwithin h.last))
    cases hfault
    rfl
  | endless => exact absurd rfl hfault.ne_endless

/-- How a bounded search ends. -/
structure IsBounded (kb : KnowledgeBase) (settings : Settings) (query : Item)
    (goals : List Literal) (b : Bindings) (trail : Trail) (N : Nat)
    (r : Outcome ProofTree × Trail) : Prop where
  ends : Ends kb settings query b trail r
  /-- More nesting than the limit never makes a difference. -/
  nesting : ∀ levels, N < levels → prove kb settings levels query b trail = r
  /-- It comes to a tree, or it is stopped by the limit. -/
  result : (∃ tree, r.1 = .proved tree) ∨ ∃ l, StoppedAt N l r.1
  /-- Where all numbers are written, the fault has the limit and the goal. -/
  printed : ∀ n m, trail.source = ⟨.int n⟩ → r.2.source = ⟨.int m⟩ →
    (Value.int N).hasText = true → IsPrinted kb goals b n m →
    (∃ tree, r.1 = .proved tree) ∨ ∃ l, r.1 = .stopped (.depthLimit N l)

/-- **A bounded search ends**, in a tree or at the depth limit. -/
theorem prove_bounded (h : WellPosed kb query goals b) (htrail : trail.source = ⟨.int n⟩)
    (hN : settings.maxDepth = some N) :
    ∃ r, IsBounded kb settings query goals b trail N r := by
  obtain ⟨r, hends, hresult, hnesting⟩ := exists_bounded h htrail hN
  refine ⟨r, hends, hnesting, hresult, fun n' m htrail' hm hlimit hprinted => ?_⟩
  obtain rfl := hnesting (N + 1) (Nat.lt_succ_self N)
  refine hresult.imp_right fun ⟨l, hl⟩ => ⟨l, ?_⟩
  exact depthLimit_of_isPrinted h.acyclic h.query htrail' hN hm hlimit hprinted hl

end Bounded

namespace Readings

/-- A reading of a sensor; the channel of a sensor is a list. -/
def reading (channel x : Term) : Literal := ⟨.str "reading", [channel, x]⟩

/-- Two things agree. -/
def agree (x y : Term) : Literal := ⟨.str "agree", [x, y]⟩

/-- The second channel of the first sensor. -/
def channel : Term := .const (.list [.int 1, .int 2])

/-- A unit, as an object. -/
def metres : Term := .const (.object [(.str "unit", .str "m")])

/-- A sensor that reads NaN, and a rule that goes around in circles before the one that
looks at the readings. -/
def clauses : KnowledgeBase := .ofList [
  .fact (reading channel (.const (.float (.nan 0)))),
  .rule ⟨agree (.var ⟨.str "X", .int 0⟩) (.var ⟨.str "Y", .int 0⟩),
    [agree (.var ⟨.str "Y", .int 0⟩) (.var ⟨.str "X", .int 0⟩)]⟩,
  .rule ⟨agree (.var ⟨.str "X", .int 0⟩) (.var ⟨.str "Y", .int 0⟩),
    [reading (.var ⟨.str "X", .int 0⟩) (.var ⟨.str "Y", .int 0⟩)]⟩]

/-- What does the sensor read? -/
def question : Literal := reading channel (.var ⟨.str "V", .int 0⟩)

/-- A question that the rules never settle. -/
def circular : Literal := agree metres (.var ⟨.str "V", .int 0⟩)

theorem wellPosed (goal : Literal) (h : goal.meets .plain = true) :
    WellPosed clauses (.literal goal) [goal] .empty :=
  .of_plain ⟨by decide, by decide⟩ rfl (List.forall_mem_singleton.2 h)
    ⟨by simp [Bindings.empty], by simp [Bindings.empty, Bindings.keys]⟩ Bindings.acyclic_empty

end Readings

open Readings in
/-- Under the limit three a reading is found, and the rule that goes around in circles is
stopped. -/
theorem bounded_readings :
    (∃ r tree, Resolver.Ends clauses { maxDepth := some 3 } (.literal question) .empty
      { source := ⟨.int 1⟩ } r ∧ r.1 = .proved tree ∧ tree.isValid = true) ∧
    ∃ r l, Resolver.Ends clauses { maxDepth := some 3 } (.literal circular) .empty
      { source := ⟨.int 1⟩ } r ∧ r.1 = .stopped (.depthLimit 3 l) := by
  let settings : Settings := { maxDepth := some 3 }
  let trail : Trail := { source := ⟨.int 1⟩ }
  have htrail : trail.source = ⟨.int 1⟩ := rfl
  have hlimit : settings.maxDepth = some 3 := rfl
  constructor
  · obtain ⟨r, hbounded⟩ := prove_bounded (wellPosed question (by decide)) htrail hlimit
    obtain ⟨tree, trail', hprove, hvalid⟩ : ∃ tree trail', Resolver.prove clauses settings 4
        (.literal question) .empty trail = (.proved tree, trail') ∧ tree.isValid = true :=
      ⟨_, _, by cbv, by cbv⟩
    obtain rfl := (hbounded.nesting 4 (by decide)).symm.trans hprove
    exact ⟨_, tree, hbounded.ends, rfl, hvalid⟩
  · obtain ⟨r, hbounded⟩ := prove_bounded (wellPosed circular (by decide)) htrail hlimit
    obtain ⟨l, trail', hprove⟩ : ∃ l trail', Resolver.prove clauses settings 4
        (.literal circular) .empty trail = (.stopped (.depthLimit 3 l), trail') :=
      ⟨_, _, by cbv⟩
    obtain rfl := (hbounded.nesting 4 (by decide)).symm.trans hprove
    exact ⟨_, l, hbounded.ends, rfl⟩

open Roundabout Numeral in
/-- A rule with a number as a plain constant.  The number is too long to be written, and it is
neither a tree nor the fault of the limit that the search comes to. -/
theorem bounded_circle_unwritten :
    ∃ r, Resolver.Ends (clauses (.const (.int huge))) { maxDepth := some 1 }
      (.literal (around (.const (.str "a")))) .empty { source := ⟨.int 1⟩ } r ∧
    r.1 = .stopped (.numeral .tooLong) := by
  have hstopped : (Resolver.prove (clauses (.const (.int huge))) { maxDepth := some 1 } 3
      (.literal (around (.const (.str "a")))) .empty { source := ⟨.int 1⟩ }).1 =
        .stopped (.numeral .tooLong) :=
    Outcome.isTooLong_iff.1 (by decide +kernel)
  exact Resolver.exists_ends_of_stopped hstopped (by simp)

end HornSearch
