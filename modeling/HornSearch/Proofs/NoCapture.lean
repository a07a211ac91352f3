/-
HornSearch/Proofs/NoCapture.lean

No variable is captured, however a source of serials is used.  A run is any sequence of
queries put to any resolvers that share one source: with knowledge bases, settings,
goals and starting bindings of their own, the bindings that earlier queries ended with
among them, and whatever became of the queries before.  `stepsOf` is the journal of a
run.

The journal of one query is orderly by `yields_prove`, for it starts past whatever is in
play.  So the journal of a run is orderly (`orderly_stepsOf`), and `not_captured` reads
off what that means for a single copy of a rule.  Bindings that a query ends with are
fit to start another one (`Call.WellFormed.bindings_meets`).
-/
import HornSearch.Proofs.Queries
import Mathlib.Data.List.Permutation

namespace HornSearch

/-- A query put to a resolver: its knowledge base and settings, the nesting that is
granted, the query and its starting bindings, and whether events are recorded. -/
structure Call where
  kb : KnowledgeBase
  settings : Settings
  levels : Nat
  query : Item
  start : Bindings
  recording : Bool := false

namespace Call

/-- The trail that a call begins with. -/
def trail (call : Call) (source : SerialSource) : Trail := { source, recording := call.recording }

/-- What becomes of a call. -/
def run (call : Call) (source : SerialSource) : Outcome ProofTree × Trail :=
  Resolver.prove call.kb call.settings call.levels call.query call.start (call.trail source)

/-- The journal of a call. -/
def steps (call : Call) (source : SerialSource) : List Step :=
  (Journaled.prove call.kb call.settings call.levels call.query call.start).steps
    (call.trail source)

/-- The knowledge base is regular, the goals are regular literals, and the starting
bindings bind regular variables to regular terms. -/
structure WellFormed (call : Call) : Prop where
  kb : call.kb.Meets .regular
  query : ∃ goals : List Literal, Resolver.goalsOf call.query = .ok (goals.map .literal) ∧
    ∀ g ∈ goals, g.meets .regular = true
  start : call.start.Meets .regular

end Call

/-- The journal of calls that are made one after the other and share a source. -/
def stepsOf : List Call → SerialSource → List Step
  | [], _ => []
  | call :: calls, source => call.steps source ++ stepsOf calls (call.run source).2.source

/-- One call keeps the journal orderly, whatever becomes of it. -/
theorem Call.orderly_steps {call : Call} (h : call.WellFormed) (n : Int) :
    ∃ m, (call.run ⟨.int n⟩).2.source = ⟨.int m⟩ ∧ Orderly n m (call.steps ⟨.int n⟩) := by
  obtain ⟨goals, hq, hg⟩ := h.query
  have htrail : (call.trail ⟨.int n⟩).source = ⟨.int n⟩ := rfl
  obtain ⟨k, m, hstart, hm, horderly, -⟩ :=
    yields_prove call.settings call.levels h.kb hq hg h.start htrail
  exact ⟨m, hm, (Orderly.nil hstart.le).append horderly⟩

/-- **Serials rise along a run.** -/
theorem orderly_stepsOf {calls : List Call} (h : ∀ call ∈ calls, call.WellFormed) (n : Int) :
    ∃ m, Orderly n m (stepsOf calls ⟨.int n⟩) := by
  induction calls generalizing n with
  | nil => exact ⟨n, .nil le_rfl⟩
  | cons call calls ih =>
    obtain ⟨hcall, hcalls⟩ := List.forall_mem_cons.1 h
    -- the next call begins where this one has left the source
    obtain ⟨k, hk, hfirst⟩ := call.orderly_steps hcall n
    obtain ⟨m, hrest⟩ := ih hcalls k
    refine ⟨m, ?_⟩
    rw [stepsOf, hk]
    exact hfirst.append hrest

/-- **No capture**: whenever a rule is copied in a run, the variables of the copy are
none of those in the goal, in a pending goal, or in a key or a value of the bindings,
and none of those in a copy that was made earlier in the run. -/
theorem not_captured {calls : List Call} (h : ∀ call ∈ calls, call.WellFormed) (n : Int)
    {earlier later : List Step} {goal : Literal} {pending : List Item} {b : Bindings}
    {copy : Rule}
    (hsteps : stepsOf calls ⟨.int n⟩ = earlier ++ .copied goal pending b copy :: later) :
    ∀ v ∈ copy.occurrences,
      v ∉ goal.occurrences ∧ (∀ i ∈ pending, v ∉ i.occurrences?.getD []) ∧
      (∀ i ∈ b.keys, v ∉ i.occurrences?.getD []) ∧ (∀ i ∈ b.values, v ∉ i.occurrences?.getD []) ∧
      ∀ goal' pending' b' copy', Step.copied goal' pending' b' copy' ∈ earlier →
        v ∉ copy'.occurrences := by
  obtain ⟨m, horderly⟩ := orderly_stepsOf h n
  rw [hsteps] at horderly
  have hmem : Step.copied goal pending b copy ∈ earlier ++ .copied goal pending b copy :: later :=
    List.mem_append_right _ List.mem_cons_self
  intro v hv
  have hplay : v ∉ (Step.copied goal pending b copy).inPlay :=
    (horderly.apart _ hmem).not_mem hv
  simp only [Step.inPlay, List.mem_append, not_or] at hplay
  obtain ⟨⟨⟨hgoal, hpending⟩, hkeys⟩, hvalues⟩ := hplay
  refine ⟨hgoal, fun i hi hvi => ?_, fun i hi hvi => ?_, fun i hi hvi => ?_,
    fun goal' pending' b' copy' hearlier hvc => ?_⟩
  · exact hpending (Item.mem_variablesHeld.2 ⟨i, hi, hvi⟩)
  · exact hkeys (Item.mem_variablesHeld.2 ⟨i, hi, hvi⟩)
  · exact hvalues (Item.mem_variablesHeld.2 ⟨i, hi, hvi⟩)
  · have hrising := (List.pairwise_append.1 horderly.rising).2.2 _ hearlier _ List.mem_cons_self
    exact hrising.not_mem hv hvc

/-- The bindings that a call ends with are regular, so another call may start from
them. -/
theorem Call.WellFormed.bindings_meets {call : Call} (h : call.WellFormed) {n : Int}
    {tree : ProofTree} (hrun : (call.run ⟨.int n⟩).1 = .proved tree) {θ : Bindings}
    (hθ : tree.bindings? = some θ) : θ.Meets .regular := by
  obtain ⟨goals, hq, hg⟩ := h.query
  have hprove : call.run ⟨.int n⟩ = (.proved tree, (call.run ⟨.int n⟩).2) := by
    rw [← hrun]
  obtain ⟨nodes, k, m, -, -, hproved, -⟩ :=
    Resolver.proved_of_valid h.kb hq hg h.start rfl hprove hθ
  exact hproved.meets h.start

namespace Family

/-- A query that the depth limit stops. -/
def stoppedCall : Call :=
  { kb := clauses, settings := { maxDepth := some 1 }, levels := 9
    query := .list (goals.map .literal), start := start }

/-- A query whose goal has a serial above those drawn so far, and whose bindings have a
higher one. -/
def numberedCall : Call :=
  { kb := clauses, settings := {}, levels := 9
    query := .literal (ancestor (person "bob") (.var ⟨.str "X", .int 12⟩))
    start := ⟨[(.ofVariable (.named "Z"), .term (.var ⟨.str "X", .int 20⟩))]⟩ }

theorem stoppedCall_wellFormed : stoppedCall.WellFormed :=
  ⟨clauses_meets, ⟨goals, rfl, by decide⟩, start_meets⟩

theorem numberedCall_wellFormed : numberedCall.WellFormed := by
  refine ⟨clauses_meets, ⟨[_], rfl, by decide⟩, ?_⟩
  exact ⟨List.forall_mem_singleton.2 ⟨_, _, rfl, rfl, rfl⟩, List.nodup_singleton _⟩

end Family

open Family in
/-- After a query that was stopped, the first copy that is made for the next query is
apart from all before it. -/
theorem not_captured_family :
    (∃ fault, (stoppedCall.run ⟨.int 1⟩).1 = .stopped fault) ∧
      ∃ goal pending b copy later,
        (stepsOf [stoppedCall, numberedCall] ⟨.int 1⟩).drop 7 =
          .copied goal pending b copy :: later ∧ copy.occurrences ≠ [] ∧
        ∀ v ∈ copy.occurrences, v ∉ goal.occurrences ∧
          (∀ i ∈ b.values, v ∉ i.occurrences?.getD []) ∧
          ∀ goal' pending' b' copy', Step.copied goal' pending' b' copy' ∈
            (stepsOf [stoppedCall, numberedCall] ⟨.int 1⟩).take 7 → v ∉ copy'.occurrences := by
  refine ⟨⟨_, by cbv⟩, ?_⟩
  obtain ⟨goal, pending, b, copy, later, hdrop, hne⟩ : ∃ goal pending b copy later,
      (stepsOf [stoppedCall, numberedCall] ⟨.int 1⟩).drop 7 =
        .copied goal pending b copy :: later ∧ copy.occurrences ≠ [] :=
    ⟨_, _, _, _, _, by cbv, by exact List.cons_ne_nil _ _⟩
  have hcalls : ∀ call ∈ [stoppedCall, numberedCall], call.WellFormed :=
    List.forall_mem_cons.2
      ⟨stoppedCall_wellFormed, List.forall_mem_singleton.2 numberedCall_wellFormed⟩
  have hsteps := (List.take_append_drop 7 (stepsOf [stoppedCall, numberedCall] ⟨.int 1⟩)).symm
  rw [hdrop] at hsteps
  refine ⟨goal, pending, b, copy, later, hdrop, hne, fun v hv => ?_⟩
  obtain ⟨hgoal, -, -, hvalues, hearlier⟩ := not_captured hcalls 1 hsteps v hv
  exact ⟨hgoal, hvalues, hearlier⟩

end HornSearch
