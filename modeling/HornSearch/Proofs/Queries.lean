/-
HornSearch/Proofs/Queries.lean

Queries of literals.  A query begins by moving the source of serials past everything
that the goals and the starting bindings have in play, and no further (`StartsAt`,
`Journaled.prove_eq`), so that the search starts within the next serial, whatever was asked
before.  From there on the results about single goals apply:

* `yields_prove`: a query keeps the journal orderly, and if it is proved then its goals
  are `Proved`, from some serial that is not below the one it began with;
* `Resolver.proved_of_valid`: the same of the search without a journal.
-/
import HornSearch.Proofs.ProvedGoals

namespace HornSearch

variable {n m : Int} {b : Bindings} {goals : List Literal}

/-! ### The serials in play -/

/-- The item has variables, and they are regular. -/
def Item.HoldsRegular (i : Item) : Prop :=
  ∃ vs, i.occurrences? = some vs ∧ ∀ v ∈ vs, v.isRegular = true

theorem Literal.holdsRegular (hg : ∀ g ∈ goals, g.meets .regular = true) :
    ∀ i ∈ goals.map Item.literal, i.HoldsRegular := by
  intro i hi
  obtain ⟨g, hg', rfl⟩ := List.mem_map.1 hi
  exact ⟨_, rfl, fun v hv => Literal.var_of_mem_occurrences (p := .regular) (hg g hg') hv⟩

theorem Bindings.Meets.exists_key (hb : b.Meets .regular) :
    ∀ i ∈ b.keys, ∃ v, i = .ofVariable v ∧ v.isRegular = true := by
  intro i hi
  obtain ⟨e, he, rfl⟩ := List.mem_map.1 hi
  obtain ⟨v, t, rfl, hv, -⟩ := hb.typed e he
  exact ⟨v, rfl, hv⟩

theorem Bindings.Meets.holdsRegular_keys (hb : b.Meets .regular) :
    ∀ i ∈ b.keys, i.HoldsRegular := by
  intro i hi
  obtain ⟨v, rfl, hv⟩ := hb.exists_key i hi
  exact ⟨[v], rfl, List.forall_mem_singleton.2 hv⟩

theorem Bindings.Meets.holdsRegular_values (hb : b.Meets .regular) :
    ∀ i ∈ b.values, i.HoldsRegular := by
  intro i hi
  obtain ⟨e, he, rfl⟩ := List.mem_map.1 hi
  obtain ⟨v, t, rfl, -, ht⟩ := hb.typed e he
  exact ⟨_, rfl, fun w hw => Term.var_of_mem_occurrences (p := .regular) ht hw⟩

namespace Item

variable {items : List Item}

theorem isRegular_of_mem_variablesHeld (h : ∀ i ∈ items, i.HoldsRegular) :
    ∀ v ∈ variablesHeld items, v.isRegular = true := by
  intro v hv
  obtain ⟨i, hi, hvi⟩ := mem_variablesHeld.1 hv
  obtain ⟨vs, hvs, hreg⟩ := h i hi
  rw [hvs] at hvi
  exact hreg v hvi

/-- Collecting variables succeeds, and loses none. -/
theorem variablesOf_eq (h : ∀ i ∈ items, i.HoldsRegular) :
    ∃ vs, variablesOf items = .ok vs ∧ ∀ v, v ∈ vs ↔ v ∈ variablesHeld items := by
  have hmap : ∃ vss, items.mapM checkedVariables = .ok vss ∧
      ∀ v, v ∈ vss.flatten ↔ v ∈ variablesHeld items := by
    induction items with
    | nil => exact ⟨[], rfl, by simp [variablesHeld]⟩
    | cons i items ih =>
      obtain ⟨⟨vs, hvs, hreg⟩, hrest⟩ := List.forall_mem_cons.1 h
      obtain ⟨vss, hvss, hmem⟩ := ih hrest
      have hhash : vs.all Variable.isHashable = true :=
        List.all_eq_true.2 fun v hv => Variable.isHashable_of_isRegular (hreg v hv)
      have hi : i.checkedVariables = .ok (Variable.distinct vs) := by
        rw [checkedVariables, hvs]
        exact if_pos hhash
      refine ⟨Variable.distinct vs :: vss, ?_, fun v => ?_⟩
      · rw [List.mapM_cons, hi, ok_bind, hvss]
        rfl
      · rw [List.flatten_cons, List.mem_append, Variable.mem_distinct_iff hreg, hmem,
          mem_variablesHeld, mem_variablesHeld, List.exists_mem_cons_iff, hvs]
        rfl
  obtain ⟨vss, hvss, hmem⟩ := hmap
  have hreg : ∀ v ∈ vss.flatten, v.isRegular = true := by
    intro v hv
    exact isRegular_of_mem_variablesHeld h v ((hmem v).1 hv)
  refine ⟨Variable.distinct vss.flatten, ?_, fun v => ?_⟩
  · rw [variablesOf, hvss]
    rfl
  · rw [Variable.mem_distinct_iff hreg, hmem]

end Item

/-- Collecting the serials of bound variables succeeds, and loses none. -/
theorem mapM_keySerial_eq {keys : List Item} (h : ∀ i ∈ keys, ∃ v, i = .ofVariable v) :
    ∃ serials, keys.mapM Resolver.keySerial = .ok serials ∧
      ∀ a, a ∈ serials ↔ ∃ v ∈ Item.variablesHeld keys, v.serial = a := by
  induction keys with
  | nil => exact ⟨[], rfl, by simp [Item.variablesHeld]⟩
  | cons i keys ih =>
    obtain ⟨⟨v, rfl⟩, hrest⟩ := List.forall_mem_cons.1 h
    obtain ⟨serials, hserials, hmem⟩ := ih hrest
    have hv : Resolver.keySerial (.ofVariable v) = .ok v.serial := rfl
    have hocc : (Item.ofVariable v).occurrences?.getD [] = [v] := rfl
    refine ⟨v.serial :: serials, ?_, fun a => ?_⟩
    · rw [List.mapM_cons, hv, ok_bind, hserials]
      rfl
    · rw [List.mem_cons, hmem, eq_comm]
      simp only [Item.variablesHeld, List.flatMap_cons, hocc, List.singleton_append,
        List.mem_cons, exists_eq_or_imp]

/-- The variables of the goals, and of the keys and the values of the bindings. -/
def variablesInPlay (goals : List Literal) (b : Bindings) : List Variable :=
  Item.variablesHeld (goals.map .literal) ++ Item.variablesHeld b.keys ++
    Item.variablesHeld b.values

theorem isRegular_of_mem_variablesInPlay (hg : ∀ g ∈ goals, g.meets .regular = true)
    (hb : b.Meets .regular) {v : Variable} (hv : v ∈ variablesInPlay goals b) :
    v.isRegular = true := by
  simp only [variablesInPlay, List.mem_append] at hv
  rcases hv with (hv | hv) | hv
  · exact Item.isRegular_of_mem_variablesHeld (Literal.holdsRegular hg) v hv
  · exact Item.isRegular_of_mem_variablesHeld hb.holdsRegular_keys v hv
  · exact Item.isRegular_of_mem_variablesHeld hb.holdsRegular_values v hv

/-- Goals and bindings are within a serial if all their variables are below it. -/
theorem below_variablesInPlay_iff (hg : ∀ g ∈ goals, g.meets .regular = true)
    (hb : b.Meets .regular) :
    (∀ v ∈ variablesInPlay goals b, v.Below m) ↔ (∀ g ∈ goals, g.Within m) ∧ b.Within m := by
  constructor
  · intro h
    refine ⟨fun g hg' => ⟨hg g hg', fun v hv => h v ?_⟩,
      hb, fun v t ht => ⟨h v ?_, fun w hw => h w ?_⟩⟩
    · have hgoal : Item.literal g ∈ goals.map .literal := List.mem_map_of_mem hg'
      have hheld := Item.mem_variablesHeld.2 ⟨_, hgoal, hv⟩
      exact List.mem_append_left _ (List.mem_append_left _ hheld)
    · have hkey : Item.ofVariable v ∈ b.keys := List.mem_map.2 ⟨_, ht, rfl⟩
      have hheld := Item.mem_variablesHeld.2 ⟨_, hkey, List.mem_singleton_self v⟩
      exact List.mem_append_left _ (List.mem_append_right _ hheld)
    · have hvalue : Item.term t ∈ b.values := List.mem_map.2 ⟨_, ht, rfl⟩
      exact List.mem_append_right _ (Item.mem_variablesHeld_of_term hvalue hw)
  · rintro ⟨hgoals, hbindings⟩ v hv
    simp only [variablesInPlay, List.mem_append, Item.mem_variablesHeld] at hv
    rcases hv with (⟨i, hi, hv⟩ | ⟨i, hi, hv⟩) | ⟨i, hi, hv⟩
    · obtain ⟨g, hg', rfl⟩ := List.mem_map.1 hi
      exact (hgoals g hg').below v hv
    · exact hbindings.below_of_mem (.inl hi) hv
    · exact hbindings.below_of_mem (.inr hi) hv

/-- **The serial that a query starts past** is the least one, from zero on, that is no less
than any in its goals and its bindings. -/
theorem serialInPlay_eq (hg : ∀ g ∈ goals, g.meets .regular = true) (hb : b.Meets .regular) :
    ∃ k : Int, Resolver.serialInPlay (goals.map .literal) b = .ok (.int k) ∧
      (∀ g ∈ goals, g.Within (k + 1)) ∧ b.Within (k + 1) ∧
      ∀ m, 1 ≤ m → (∀ g ∈ goals, g.Within m) → b.Within m → k + 1 ≤ m := by
  obtain ⟨inGoals, hgoals, hmemGoals⟩ := Item.variablesOf_eq (Literal.holdsRegular hg)
  obtain ⟨inValues, hvalues, hmemValues⟩ := Item.variablesOf_eq hb.holdsRegular_values
  obtain ⟨inKeys, hkeys, hmemKeys⟩ :=
    mapM_keySerial_eq fun i hi => (hb.exists_key i hi).imp fun _ h => h.1
  let serials := inGoals.map (·.serial) ++ inKeys ++ inValues.map (·.serial)
  have hmem : ∀ a, a ∈ serials ↔ ∃ v ∈ variablesInPlay goals b, v.serial = a := by
    intro a
    simp only [serials, variablesInPlay, List.mem_append, List.mem_map, hmemGoals, hmemKeys,
      hmemValues, or_and_right, exists_or]
  have hint : ∀ v ∈ variablesInPlay goals b, ∃ i : Int, v.serial = .int i := by
    intro v hv
    obtain ⟨s, i, rfl⟩ := Variable.isRegular_iff.1 (isRegular_of_mem_variablesInPlay hg hb hv)
    exact ⟨i, rfl⟩
  have hserials : ∀ a ∈ serials, ∃ i : Int, a = .int i := by
    intro a ha
    obtain ⟨v, hv, rfl⟩ := (hmem a).1 ha
    exact hint v hv
  obtain ⟨k, hk, hle, hleast⟩ := largestSerial_eq hserials
  have hbelow : ∀ v ∈ variablesInPlay goals b, v.Below (k + 1) := by
    intro v hv
    obtain ⟨i, hi⟩ := hint v hv
    have hserial : Value.int i ∈ serials := (hmem _).2 ⟨v, hv, hi⟩
    exact ⟨i, hi, Int.lt_add_one_of_le (hle i hserial)⟩
  obtain ⟨hgoals', hbindings⟩ := (below_variablesInPlay_iff hg hb).1 hbelow
  refine ⟨k, ?_, hgoals', hbindings, fun m hm hgm hbm => ?_⟩
  · rw [Resolver.serialInPlay, hgoals, ok_bind, hvalues, ok_bind, hkeys, ok_bind]
    exact hk
  · have hbound : k ≤ m - 1 := by
      refine hleast (m - 1) (by omega) fun j hj => ?_
      obtain ⟨v, hv, hvj⟩ := (hmem _).1 hj
      obtain ⟨i, hi, hlt⟩ := (below_variablesInPlay_iff hg hb).2 ⟨hgm, hbm⟩ v hv
      obtain rfl := Value.int.inj (hvj.symm.trans hi)
      omega
    omega

/-- **Where a query starts**: with the source at `n`, at the first serial from there on that is
past all in play. -/
structure StartsAt (goals : List Literal) (b : Bindings) (n k : Int) : Prop where
  le : n ≤ k
  goals_within : ∀ g ∈ goals, g.Within k
  bindings_within : b.Within k
  least : ∀ m, n ≤ m → 1 ≤ m → (∀ g ∈ goals, g.Within m) → b.Within m → k ≤ m

/-! ### Queries -/

section Query

open Journaled

variable {kb : KnowledgeBase} {settings : Settings} {levels : Nat} {query : Item}

/-- What is left of a query of literals once the source is past all in play. -/
def Journaled.proveFrom (kb : KnowledgeBase) (settings : Settings) (levels : Nat)
    (goals : List Literal) (b : Bindings) : Journaled ProofTree :=
  orElse
    (do
      let proof ← Journaled.solveGoals kb settings levels (goals.map .literal) b
      return ⟨goals.map .literal, some proof⟩)
    (lift (Resolver.unproved (goals.map .literal)))

theorem Journaled.erase_proveFrom (kb : KnowledgeBase) (settings : Settings) (levels : Nat)
    (goals : List Literal) (b : Bindings) :
    erase (proveFrom kb settings levels goals b) =
      Search.orElse
        (do
          let proof ← Resolver.solveGoals kb settings levels (goals.map .literal) b
          return ⟨goals.map .literal, some proof⟩)
        (Resolver.unproved (goals.map .literal)) := by
  simp only [proveFrom, erase_orElse, erase_bind, erase_solveGoals, erase_pure, erase_lift]

/-- A query first moves the source to where it starts. -/
theorem Journaled.prove_eq (hq : Resolver.goalsOf query = .ok (goals.map .literal))
    (hg : ∀ g ∈ goals, g.meets .regular = true) (hb : b.Meets .regular) (n : Int) :
    ∃ k, StartsAt goals b n k ∧ ∀ (kb : KnowledgeBase) (settings : Settings) (levels : Nat)
      (trail : Trail), trail.source = ⟨.int n⟩ →
      Journaled.prove kb settings levels query b trail =
        proveFrom kb settings levels goals b { trail with source := ⟨.int k⟩ } := by
  obtain ⟨top, htop, hgoals, hbindings, hleast⟩ := serialInPlay_eq hg hb
  refine ⟨max n (top + 1), ⟨le_max_left _ _, fun g hg' => (hgoals g hg').mono (le_max_right _ _),
    hbindings.mono (le_max_right _ _), fun m hnm hm hgm hbm => max_le hnm (hleast m hm hgm hbm)⟩,
    fun kb settings levels trail htrail => ?_⟩
  have hgoalsOf : Search.ofChecked (Resolver.goalsOf query) trail =
      (.proved (goals.map .literal), trail) := by
    rw [hq]
    rfl
  have hserial : Search.ofChecked (Resolver.serialInPlay (goals.map .literal) b) trail =
      (.proved (.int top), trail) := by
    rw [htop]
    rfl
  have hskip : Search.skipPast (.int top) trail =
      (.proved (), { trail with source := ⟨.int (max n (top + 1))⟩ }) := by
    rw [Search.skipPast, htrail, SerialSource.skipPast_int]
  rw [Journaled.prove, lift_bind_of_proved hgoalsOf, lift_bind_of_proved hserial,
    lift_bind_of_proved hskip]
  rfl

theorem yields_solveGoals (hkb : kb.Meets .regular) (hg : ∀ g ∈ goals, g.Within n)
    (hb : b.Within n) :
    Yields (Journaled.solveGoals kb settings levels (goals.map .literal) b) n
      fun m r => Proved kb settings.maxDepth 0 goals b n r.1 r.2 m := by
  rw [solveGoals_eq]
  exact provesAll_solveAll hkb (provesOne_solve hkb levels 0) [] goals b n hg
    (by simp [Item.variablesHeld]) hb

/-- From where a query starts it yields a tree about its goals, which are `Proved` if the tree
has a proof. -/
theorem yields_proveFrom (settings : Settings) (levels : Nat) (hkb : kb.Meets .regular)
    (hg : ∀ g ∈ goals, g.Within n) (hb : b.Within n) :
    Yields (proveFrom kb settings levels goals b) n fun m tree =>
      tree.query = goals.map .literal ∧ ∀ θ nodes, tree.proof = some (θ, nodes) →
        Proved kb settings.maxDepth 0 goals b n θ nodes m := by
  refine Yields.orElse ((yields_solveGoals hkb hg hb).bind ?_) fun i _ => ?_
  · rintro i ⟨θ, nodes⟩ - hproved
    refine yields_pure ⟨rfl, fun θ' nodes' h => ?_⟩
    obtain ⟨rfl, rfl⟩ := Prod.ext_iff.1 (Option.some.inj h)
    exact hproved
  -- the tree of a query that fails has no proof
  · refine yields_lift ?_ fun trail tree h => ?_
    · exact (Search.keepsSource_record _).bind fun _ _ => rfl
    · obtain ⟨_, _, hreturned⟩ := Search.exists_of_bind h
      obtain rfl := Outcome.proved.inj hreturned
      refine ⟨rfl, fun _ _ hnone => ?_⟩
      cases hnone

/-- **What a query yields** from where it starts: its journal is orderly from there on, and its
tree is about its goals, which are `Proved` if the tree has a proof. -/
theorem yields_prove (settings : Settings) (levels : Nat) (hkb : kb.Meets .regular)
    (hq : Resolver.goalsOf query = .ok (goals.map .literal))
    (hg : ∀ g ∈ goals, g.meets .regular = true) (hb : b.Meets .regular) {trail : Trail}
    (htrail : trail.source = ⟨.int n⟩) :
    ∃ k m, StartsAt goals b n k ∧
      (Resolver.prove kb settings levels query b trail).2.source = ⟨.int m⟩ ∧
      Orderly k m ((Journaled.prove kb settings levels query b).steps trail) ∧
      ∀ tree, (Resolver.prove kb settings levels query b trail).1 = .proved tree →
        tree.query = goals.map .literal ∧ ∀ θ nodes, tree.proof = some (θ, nodes) →
          Proved kb settings.maxDepth 0 goals b k θ nodes m := by
  obtain ⟨k, hstart, hprove⟩ := Journaled.prove_eq hq hg hb n
  obtain ⟨m, hm, hyields⟩ :=
    yields_proveFrom settings levels hkb hstart.goals_within hstart.bindings_within
      { trail with source := ⟨.int k⟩ } rfl
  refine ⟨k, m, hstart, ?_⟩
  rw [← erase_prove]
  unfold erase steps at *
  rw [hprove _ _ _ _ htrail]
  exact ⟨hm, hyields⟩

/-- **The goals of a query that is proved are `Proved`** from where it starts on, up to where the
source stands then, with the bindings and the nodes of its tree, and its journal is orderly. -/
theorem Resolver.proved_of_valid (hkb : kb.Meets .regular)
    (hq : Resolver.goalsOf query = .ok (goals.map .literal))
    (hg : ∀ g ∈ goals, g.meets .regular = true) (hb : b.Meets .regular) {trail trail' : Trail}
    (htrail : trail.source = ⟨.int n⟩) {tree : ProofTree}
    (h : Resolver.prove kb settings levels query b trail = (.proved tree, trail')) {θ : Bindings}
    (hvalid : tree.bindings? = some θ) :
    ∃ nodes k m, tree = ⟨goals.map .literal, some (θ, nodes)⟩ ∧ StartsAt goals b n k ∧
      Proved kb settings.maxDepth 0 goals b k θ nodes m ∧
      Orderly k m ((Journaled.prove kb settings levels query b).steps trail) ∧
      trail'.source = ⟨.int m⟩ := by
  obtain ⟨k, m, hstart, hm, horderly, hproof⟩ :=
    yields_prove settings levels hkb hq hg hb htrail
  rw [h] at hm hproof
  obtain ⟨hquery, hproof⟩ := hproof tree rfl
  obtain ⟨query', proof⟩ := tree
  obtain ⟨⟨θ', nodes⟩, rfl, rfl⟩ := Option.map_eq_some_iff.1 hvalid
  obtain rfl : query' = goals.map .literal := hquery
  exact ⟨nodes, k, m, rfl, hstart, hproof θ' nodes rfl, horderly, hm⟩

end Query

end HornSearch
