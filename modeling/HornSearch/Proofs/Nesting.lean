/-
HornSearch/Proofs/Nesting.lean

Unification ends.  The count of nested calls that `unifyWithin` is granted is enough
whenever the environment is acyclic and variables are regular, so the only answers are
an environment and a failure to unify.

Fix the finite set of the variables at hand and a bound on the heights of the terms
at hand (`Fits`, `Confined`).  Under one environment the nesting is bounded by the
effort (`Bindings.effort`): entering two function terms lowers the heights of both
full values, and following a binding leads to variables of smaller rank.  A new
binding may raise the effort, but there are only as many as there are variables, so
the two together fall along every path of calls (`Bindings.nesting`).

* `Confined.effort_le`: the effort is bounded by the number of variables and the
  heights;
* `recordWithin_settles`: a call that is granted more than its nesting has an answer,
  and neither that nor what is done for it depends on how much more;
* `settles_lists`, `settles_terms`, `settles_literals`: what the operations start from
  is enough.
-/
import HornSearch.Proofs.Derivation
import HornSearch.Proofs.Recording
import Mathlib.Data.Finset.Lattice.Fold

namespace HornSearch

variable {p : Criterion} {V : Finset Variable} {H : Nat} {b c : Bindings} {t u : Term}
variable {v w : Variable}

/-! ### The effort under one environment -/

theorem Term.height_instantiate_le {σ : Assignment} {n : Nat} {t : Term}
    (h : ∀ v ∈ t.occurrences, (σ v).height ≤ n) : (t.instantiate σ).height ≤ t.height + n := by
  induction t using induct with
  | var v => simpa [height] using h v (by simp [occurrences])
  | const a => simp [height]
  | app f ts ih =>
    rw [instantiate_app]
    have hts : heightList (ts.map (instantiate σ)) ≤ heightList ts + n := by
      rw [heightList_le_iff, List.forall_mem_map]
      intro t ht
      have hle := ih t ht fun v hv => h v (mem_occurrences_app.2 ⟨t, ht, hv⟩)
      have htop := heightList_le_iff.1 (Nat.le_refl (heightList ts)) t ht
      omega
    rw [height, height]
    omega

namespace Bindings

/-- The height of the full value of a term. -/
def fullHeight (b : Bindings) (t : Term) : Nat := (t.instantiate b.solution).height

/-- The greatest rank of a variable in a term. -/
noncomputable def reach (b : Bindings) (t : Term) : Nat := (t.occurrences.map b.rank).foldr max 0

/-- A bound on the nesting of the calls that unify two terms without binding. -/
noncomputable def effort (b : Bindings) (t u : Term) : Nat :=
  min (b.fullHeight t) (b.fullHeight u) + b.reach t + b.reach u

theorem effort_comm (b : Bindings) (t u : Term) : b.effort t u = b.effort u t := by
  simp only [effort]
  omega

theorem reach_le_iff {n : Nat} : b.reach t ≤ n ↔ ∀ v ∈ t.occurrences, b.rank v ≤ n := by
  unfold reach
  induction t.occurrences with
  | nil => simp
  | cons v vs ih => rw [List.map_cons, List.foldr_cons, Nat.max_le, ih, List.forall_mem_cons]

theorem rank_le_reach (hv : v ∈ t.occurrences) : b.rank v ≤ b.reach t :=
  reach_le_iff.1 (Nat.le_refl _) v hv

theorem reach_var (v : Variable) : b.reach (.var v) = b.rank v := by
  simp [reach, Term.occurrences]

theorem fullHeight_lt_app {f : Value} {ts : List Term} (ht : t ∈ ts) :
    b.fullHeight t < b.fullHeight (.app f ts) := by
  rw [fullHeight, fullHeight, Term.instantiate_app]
  exact Term.height_lt_app (List.mem_map_of_mem ht)

theorem reach_le_app {f : Value} {ts : List Term} (ht : t ∈ ts) :
    b.reach t ≤ b.reach (.app f ts) :=
  reach_le_iff.2 fun _ hv => rank_le_reach (Term.mem_occurrences_app.2 ⟨t, ht, hv⟩)

/-- Entering two function terms lowers the effort. -/
theorem effort_lt_app {f g : Value} {ts us : List Term} (ht : t ∈ ts) (hu : u ∈ us) :
    b.effort t u < b.effort (.app f ts) (.app g us) := by
  have h₁ := fullHeight_lt_app (b := b) (f := f) ht
  have h₂ := fullHeight_lt_app (b := b) (f := g) hu
  have h₃ := reach_le_app (b := b) (f := f) ht
  have h₄ := reach_le_app (b := b) (f := g) hu
  simp only [effort]
  omega

theorem Acyclic.reach_lt_rank (hac : b.Acyclic) (hu : b.Binds v u) : b.reach u < b.rank v := by
  have hle : b.reach u ≤ b.rank v - 1 :=
    reach_le_iff.2 fun w hw => Nat.le_sub_one_of_lt (hac.rank_lt ⟨u, hu, hw⟩)
  have hpos := rank_pos hu
  omega

/-- Following a binding lowers the effort. -/
theorem Acyclic.effort_lt_binds [p.Named] (hac : b.Acyclic) (h : b.Meets p) (hu : b.Binds v u)
    (t : Term) : b.effort t u < b.effort t (.var v) := by
  have hfull : b.fullHeight (.var v) = b.fullHeight u := by
    rw [fullHeight, Term.instantiate_var, hac.solution_of_binds h hu, fullHeight]
  have hlt := hac.reach_lt_rank hu
  simp only [effort, hfull, reach_var]
  omega

end Bindings

/-! ### Terms and environments of bounded size -/

/-- The variables of the term are regular and in `V`, and it is at most `H` high. -/
structure Fits (V : Finset Variable) (H : Nat) (t : Term) : Prop where
  meets : t.meets .loose = true
  subset : ∀ v ∈ t.occurrences, v ∈ V
  height : t.height ≤ H

/-- The environment is acyclic, and binds variables in `V` to terms that fit. -/
structure Confined (V : Finset Variable) (H : Nat) (b : Bindings) : Prop where
  meets : b.Meets .loose
  acyclic : b.Acyclic
  fits : ∀ v t, b.Binds v t → Fits V H (.var v) ∧ Fits V H t

theorem Fits.of_mem {f : Value} {ts : List Term} (h : Fits V H (.app f ts)) (ht : t ∈ ts) :
    Fits V H t where
  meets := (Term.meets_app_iff.1 h.meets).2 t ht
  subset v hv := h.subset v (Term.mem_occurrences_app.2 ⟨t, ht, hv⟩)
  height := (Term.height_lt_app ht).le.trans h.height

namespace Confined

theorem size_le_card (hb : Confined V H b) : b.size ≤ V.card := by
  classical
  have hkeys : ∀ i ∈ b.keys, i ∈ V.image Item.ofVariable := by
    intro i hi
    obtain ⟨e, he, rfl⟩ := List.mem_map.1 hi
    obtain ⟨v, t, rfl, -⟩ := hb.meets.typed e he
    exact Finset.mem_image_of_mem _ ((hb.fits v t he).1.subset v (by simp [Term.occurrences]))
  calc b.size = b.keys.length := by simp [Bindings.size, Bindings.keys]
    _ = b.keys.toFinset.card := (List.toFinset_card_of_nodup hb.meets.nodup).symm
    _ ≤ (V.image Item.ofVariable).card :=
      Finset.card_le_card fun i hi => hkeys i (List.mem_toFinset.1 hi)
    _ ≤ V.card := Finset.card_image_le

/-- A chain of bindings adds the height of one bound term for each of its links. -/
theorem height_solution_le (hb : Confined V H b) (hv : v.isRegular = true) :
    (b.solution v).height ≤ b.rank v * H := by
  -- along the bindings, for the variables in a bound term have smaller rank
  induction v using hb.acyclic.induct with
  | h v ih =>
    by_cases hbound : b.IsBound v
    · obtain ⟨t, ht⟩ := hbound
      have hocc : ∀ w ∈ t.occurrences, (b.solution w).height ≤ (b.rank v - 1) * H := by
        intro w hw
        have hlt := hb.acyclic.rank_lt ⟨t, ht, hw⟩
        refine (ih w ⟨t, ht, hw⟩ (hb.meets.dependsOn_regular ⟨t, ht, hw⟩)).trans ?_
        exact Nat.mul_le_mul_right H (Nat.le_sub_one_of_lt hlt)
      rw [hb.acyclic.solution_of_binds hb.meets ht]
      calc (t.instantiate b.solution).height
          ≤ t.height + (b.rank v - 1) * H := Term.height_instantiate_le hocc
        _ ≤ H + (b.rank v - 1) * H := Nat.add_le_add_right (hb.fits v t ht).2.height _
        _ = (b.rank v - 1 + 1) * H := by rw [Nat.succ_mul, Nat.add_comm]
        _ = b.rank v * H := by rw [Nat.sub_add_cancel (Bindings.rank_pos ht)]
    · rw [hb.acyclic.solution_of_unbound hb.meets hv hbound]
      exact Nat.zero_le _

theorem reach_le_card (hb : Confined V H b) (t : Term) : b.reach t ≤ V.card :=
  Bindings.reach_le_iff.2 fun v _ => (b.rank_le_size v).trans hb.size_le_card

theorem fullHeight_le (hb : Confined V H b) (ht : Fits V H t) :
    b.fullHeight t ≤ (V.card + 1) * H := by
  have hocc : ∀ v ∈ t.occurrences, (b.solution v).height ≤ V.card * H := by
    intro v hv
    have hreg := Term.isRegular_of_mem_occurrences ht.meets hv
    refine (hb.height_solution_le hreg).trans (Nat.mul_le_mul_right H ?_)
    exact (b.rank_le_size v).trans hb.size_le_card
  calc b.fullHeight t ≤ t.height + V.card * H := Term.height_instantiate_le hocc
    _ ≤ H + V.card * H := Nat.add_le_add_right ht.height _
    _ = (V.card + 1) * H := by rw [Nat.succ_mul, Nat.add_comm]

theorem effort_le (hb : Confined V H b) (ht : Fits V H t) :
    b.effort t u ≤ (V.card + 1) * (H + 3) := by
  have h₁ := hb.fullHeight_le ht
  have h₂ := hb.reach_le_card t
  have h₃ := hb.reach_le_card u
  have h₄ := Nat.min_le_left (b.fullHeight t) (b.fullHeight u)
  rw [Bindings.effort, Nat.mul_add]
  omega

theorem posed (hb : Confined V H b) (ht : Fits V H t) (hu : Fits V H u) :
    Posed .loose [(t, u)] b :=
  .single (fun _ h => h) ht.meets hu.meets hb.meets

/-- Whatever two terms that fit are unified to is confined as the environment was. -/
theorem unified (hb : Confined V H b) (ht : Fits V H t) (hu : Fits V H u)
    (h : Unified [(t, u)] b (some c)) : Confined V H c where
  meets := h.meets rfl (hb.posed ht hu)
  acyclic := h.acyclic rfl (hb.posed ht hu) hb.acyclic
  fits := h.binds_of_closed rfl (fun _ _ h _ => h.of_mem) (by simpa using ⟨ht, hu⟩) hb.fits

end Confined

/-! ### The nesting over all environments -/

/-- A bound on the nesting of the calls that unify two terms: the effort, and the
greatest effort once more for each variable that can still be bound. -/
noncomputable def Bindings.nesting (V : Finset Variable) (H : Nat) (b : Bindings) (t u : Term) :
    Nat :=
  (V.card - b.size) * ((V.card + 1) * (H + 3) + 1) + b.effort t u

/-- An environment with more bindings leaves less nesting, and so does the same
environment with less effort. -/
theorem Confined.nesting_lt {t' u' : Term} (hc : Confined V H c) (ht : Fits V H t')
    (hp : b.entries <+: c.entries) (heff : b.effort t' u' < b.effort t u) :
    c.nesting V H t' u' < b.nesting V H t u := by
  rw [Bindings.nesting, Bindings.nesting]
  rcases hp.length_le.lt_or_eq with hlt | heq
  · have hlt : b.size < c.size := hlt
    have hle := hc.size_le_card
    have heff' := hc.effort_le (u := u') ht
    -- one more variable is bound, which pays for any effort that `c` may ask for
    have hmul : (V.card - c.size + 1) * ((V.card + 1) * (H + 3) + 1) ≤
        (V.card - b.size) * ((V.card + 1) * (H + 3) + 1) := Nat.mul_le_mul_right _ (by omega)
    rw [Nat.succ_mul] at hmul
    omega
  · have hbc : b = c := by
      obtain ⟨es⟩ := b
      obtain ⟨es'⟩ := c
      exact congrArg Bindings.mk (hp.eq_of_length heq)
    subst hbc
    omega

theorem Confined.nesting_lt_bound (hb : Confined V H b) (ht : Fits V H t) {count height : Nat}
    (hV : V.card ≤ count) (hH : H ≤ height) :
    b.nesting V H t u < (count + 1) * ((count + 1) * (height + 3) + 1) := by
  have heff := hb.effort_le (u := u) ht
  calc b.nesting V H t u
      < V.card * ((V.card + 1) * (H + 3) + 1) + ((V.card + 1) * (H + 3) + 1) := by
        refine Nat.add_lt_add_of_le_of_lt (Nat.mul_le_mul_right _ ?_) (Nat.lt_succ_of_le heff)
        exact Nat.sub_le _ _
    _ = (V.card + 1) * ((V.card + 1) * (H + 3) + 1) := (Nat.succ_mul _ _).symm
    _ ≤ (count + 1) * ((count + 1) * (height + 3) + 1) := by
        have hcount : V.card + 1 ≤ count + 1 := Nat.succ_le_succ hV
        refine Nat.mul_le_mul hcount (Nat.succ_le_succ ?_)
        exact Nat.mul_le_mul hcount (Nat.add_le_add_right hH 3)

/-! ### There is an answer -/

theorem Settles.each {n : Nat} {ts us : List Term} (hts : ∀ t ∈ ts, Fits V H t)
    (hus : ∀ u ∈ us, Fits V H u) (hb : Confined V H b)
    (hpairs : ∀ c, Confined V H c → b.entries <+: c.entries → ∀ t ∈ ts, ∀ u ∈ us,
      Settles n fun depth => recordWithin depth (.term t) (.term u) c) :
    Settles n fun depth => recordEach (recordWithin depth) (ts.map .term) (us.map .term) b := by
  induction ts generalizing us b with
  | nil => cases us <;> exact .pure _
  | cons t ts ih =>
    cases us with
    | nil => exact .pure _
    | cons u us =>
      obtain ⟨ht, hts⟩ := List.forall_mem_cons.1 hts
      obtain ⟨hu, hus⟩ := List.forall_mem_cons.1 hus
      -- the environment only grows, so what is known of longer ones is known of the next
      obtain ⟨r, deeds, hrun, hs⟩ := hpairs b hb List.prefix_rfl t (by simp) u (by simp)
      dsimp only at hrun
      have hr : unifyWithin n (.term t) (.term u) b = .ok r := by
        rw [← follows_recordWithin, hrun n (Nat.le_refl n)]
      cases r with
      | none =>
        refine ⟨none, deeds, fun depth hd => ?_, hs⟩
        simp only [List.map_cons, recordEach, hrun depth hd]
      | some c =>
        have h := (derives_unifyWithin n t u b (some c) (hb.posed ht hu) hr).unified
        have hrest := ih hts hus (hb.unified ht hu h) fun d hd hcd t' ht' u' hu' =>
          hpairs d hd ((h.isPrefix rfl).trans hcd) t' (by simp [ht']) u' (by simp [hu'])
        obtain ⟨r, rest, hrun', hs'⟩ := hrest
        refine ⟨r, deeds ++ rest, fun depth hd => ?_, List.forall_mem_append.2 ⟨hs, hs'⟩⟩
        simp only [List.map_cons, recordEach, hrun depth hd]
        exact congrArg (Recorded.after deeds) (hrun' depth hd)

theorem Settles.bind {n : Nat} (hb : Confined V H b) (hv : v.isRegular = true)
    (ht : t.meets .loose = true) (hbound : ¬ b.IsBound v) :
    Settles n fun _ => recordBind v (.term t) b := by
  have hext := hb.meets.extend_eq (t := t) hv hbound
  have hdeed : (Deed.extended v (.term t) b).Succeeds :=
    ⟨(hb.meets.find?_eq_none_iff hv).2 hbound, hext⟩
  have hbind : Settles n fun _ => ⟨(b.extend (.ofVariable v) (.term t)).map some,
      [.extended v (.term t) b]⟩ := by
    rw [hext]
    exact ⟨_, _, fun _ _ => rfl, by simpa using hdeed⟩
  cases t with
  | app f ts =>
    -- only function terms are searched for the variable
    obtain ⟨found, hfound, -⟩ := Unified.occursIn_eq_ok hb.acyclic hb.meets hv ht
    have hsearch : (Deed.searched v (.term (.app f ts)) b).Succeeds := ⟨found, hfound⟩
    rw [recordBind, hfound, hext]
    cases found
    · exact ⟨_, _, fun _ _ => rfl, by simpa using ⟨hsearch, hdeed⟩⟩
    · exact ⟨_, _, fun _ _ => rfl, by simpa using hsearch⟩
  | var w => exact hbind
  | const a => exact hbind

/-- A variable and a term settle if what stands for them does. -/
theorem Settles.variable {n : Nat} (hb : Confined V H b) (hv : Fits V H (.var v))
    (ht : Fits V H t)
    (hnext : ∀ t' u', Fits V H t' → Fits V H u' → b.effort t' u' < b.effort (.var v) t →
      Settles n fun depth => recordWithin depth (.term t') (.term u') b) :
    Settles n fun depth => recordVariable (recordWithin depth) v (.term t) b := by
  unfold recordVariable
  split
  · exact .pure _
  · have hv' : v.isRegular = true := hv.meets
    by_cases hbound : b.IsBound v
    · obtain ⟨u, hu⟩ := hbound
      rw [hb.meets.lookup_of_binds hu]
      refine hnext t u ht (hb.fits v u hu).2 ?_
      rw [b.effort_comm (.var v)]
      exact hb.acyclic.effort_lt_binds hb.meets hu t
    · rw [hb.meets.lookup_of_unbound hv' hbound]
      cases t with
      | var w =>
        by_cases hwbound : b.IsBound w
        · obtain ⟨u, hu⟩ := hwbound
          simp only [hb.meets.lookup_of_binds hu]
          exact hnext (.var v) u hv (hb.fits w u hu).2
            (hb.acyclic.effort_lt_binds hb.meets hu (.var v))
        · simp only [hb.meets.lookup_of_unbound ht.meets hwbound]
          exact .bind hb hv' ht.meets hbound
      | const a => exact .bind hb hv' ht.meets hbound
      | app f ts => exact .bind hb hv' ht.meets hbound

/-- **A call settles from the nesting after its own on.** -/
theorem recordWithin_settles {n : Nat} (hb : Confined V H b) (ht : Fits V H t)
    (hu : Fits V H u) (hlt : b.nesting V H t u < n) :
    Settles n fun depth => recordWithin depth (.term t) (.term u) b := by
  induction n generalizing b t u with
  | zero => exact absurd hlt (Nat.not_lt_zero _)
  | succ n ih =>
    -- a call with less effort, under this environment or a longer one
    have hnext : ∀ c, Confined V H c → b.entries <+: c.entries → ∀ t' u', Fits V H t' →
        Fits V H u' → b.effort t' u' < b.effort t u →
        Settles n fun depth => recordWithin depth (.term t') (.term u') c := by
      intro c hc hbc t' u' ht' hu' heff
      exact ih hc ht' hu' ((hc.nesting_lt ht' hbc heff).trans_le (Nat.le_of_lt_succ hlt))
    have hleft : ∀ v, t = .var v →
        Settles n fun depth => recordVariable (recordWithin depth) v (.term u) b := by
      rintro v rfl
      exact .variable hb ht hu fun t' u' => hnext b hb List.prefix_rfl t' u'
    have hright : ∀ w, u = .var w →
        Settles n fun depth => recordVariable (recordWithin depth) w (.term t) b := by
      rintro w rfl
      refine .variable hb hu ht fun t' u' ht' hu' heff => ?_
      exact hnext b hb List.prefix_rfl t' u' ht' hu' (b.effort_comm (.var w) t ▸ heff)
    apply Settles.call
    cases t with
    | var v => exact hleft v rfl
    | const a =>
      cases u with
      | var w => exact hright w rfl
      | const c => exact .pure _
      | app g us => exact .pure _
    | app f ts =>
      cases u with
      | var w => exact hright w rfl
      | const c => exact .pure _
      | app g us =>
        unfold recordStep
        dsimp only
        split
        · refine .each (fun t => ht.of_mem) (fun u => hu.of_mem) hb
            fun c hc hbc t' ht' u' hu' => ?_
          exact hnext c hc hbc t' u' (ht.of_mem ht') (hu.of_mem hu')
            (Bindings.effort_lt_app ht' hu')
        · exact .pure _

/-! ### The operations -/

namespace Item

theorem length_variablesHeld_le (xs : List Item) :
    (variablesHeld xs).length ≤ variableCountList xs := by
  induction xs with
  | nil => rfl
  | cons x xs ih =>
    have hx : (x.occurrences?.getD []).length ≤ x.variableCount := by
      cases x <;> simp [occurrences?, variableCount]
    rw [variablesHeld, List.flatMap_cons, List.length_append, variableCountList]
    exact Nat.add_le_add hx ih

theorem height_le_heightList {xs : List Item} {x : Item} (hx : x ∈ xs) :
    x.height ≤ heightList xs := by
  induction xs with
  | nil => cases hx
  | cons y xs ih =>
    rw [heightList]
    rcases List.mem_cons.1 hx with rfl | hx
    · exact Nat.le_max_left _ _
    · exact (ih hx).trans (Nat.le_max_right _ _)

end Item

/-- The terms and the environment of a problem fit in bounds by which the nesting is
within the bound that unification starts from. -/
theorem exists_confined {ts us : List Term} (hts : ∀ t ∈ ts, t.meets .loose = true)
    (hus : ∀ u ∈ us, u.meets .loose = true) (hb : b.Meets .loose) (hac : b.Acyclic) :
    ∃ V H, Confined V H b ∧ (∀ t ∈ ts, Fits V H t) ∧ (∀ u ∈ us, Fits V H u) ∧
      ∀ c t u, Confined V H c → Fits V H t →
        c.nesting V H t u < nestingBound (ts.map .term) (us.map .term) b := by
  classical
  -- all variables at hand, and the height of the highest term
  let vs := b.keys.filterMap Item.var? ++ Item.variablesHeld b.values ++
    Item.variablesHeld (ts.map .term) ++ Item.variablesHeld (us.map .term)
  let H := max b.height (max (Item.heightList (ts.map .term)) (Item.heightList (us.map .term)))
  have hV : vs.toFinset.card ≤ b.variableCount + Item.variableCountList (ts.map .term) +
      Item.variableCountList (us.map .term) := by
    refine (List.toFinset_card_le vs).trans ?_
    have hkeys := b.length_keys_le_size
    have h₁ := Item.length_variablesHeld_le b.values
    have h₂ := Item.length_variablesHeld_le (ts.map .term)
    have h₃ := Item.length_variablesHeld_le (us.map .term)
    simp only [vs, List.length_append, Bindings.variableCount]
    omega
  have hfits : ∀ t, t.meets .loose = true →
      Item.term t ∈ b.values ∨ Item.term t ∈ ts.map Item.term ∨ Item.term t ∈ us.map Item.term →
      Fits vs.toFinset H t := by
    intro t ht hmem
    refine ⟨ht, fun v hv => List.mem_toFinset.2 ?_, ?_⟩
    · simp only [vs, List.mem_append]
      rcases hmem with h | h | h
      · exact .inl (.inl (.inr (Item.mem_variablesHeld_of_term h hv)))
      · exact .inl (.inr (Item.mem_variablesHeld_of_term h hv))
      · exact .inr (Item.mem_variablesHeld_of_term h hv)
    · rcases hmem with h | h | h
      · exact (Item.height_le_heightList h).trans (Nat.le_max_left _ _)
      · exact (Item.height_le_heightList h).trans
          ((Nat.le_max_left _ _).trans (Nat.le_max_right _ _))
      · exact (Item.height_le_heightList h).trans
          ((Nat.le_max_right _ _).trans (Nat.le_max_right _ _))
  refine ⟨vs.toFinset, H, ⟨hb, hac, fun v t hvt => ⟨⟨hb.isRegular hvt, fun w hw => ?_, ?_⟩, ?_⟩⟩,
    fun t ht => ?_, fun u hu => ?_, fun c t u hc ht => ?_⟩
  · obtain rfl := List.mem_singleton.1 hw
    simp [vs, hvt.mem_keys]
  · exact Nat.zero_le _
  · exact hfits t (hb.meets hvt) (.inl (List.mem_map.2 ⟨_, hvt, rfl⟩))
  · exact hfits t (hts t ht) (.inr (.inl (List.mem_map_of_mem ht)))
  · exact hfits u (hus u hu) (.inr (.inr (List.mem_map_of_mem hu)))
  · exact hc.nesting_lt_bound ht hV (Nat.le_refl H)

variable [p.Named]

/-- Two lists of terms settle from the bound on that unification starts from. -/
theorem settles_lists {ts us : List Term} (hts : ∀ t ∈ ts, t.meets p = true)
    (hus : ∀ u ∈ us, u.meets p = true) (hb : b.Meets p) (hac : b.Acyclic) :
    Settles (nestingBound (ts.map .term) (us.map .term) b) fun depth =>
      recordEach (recordWithin depth) (ts.map .term) (us.map .term) b := by
  obtain ⟨V, H, hconf, hts', hus', hbound⟩ := exists_confined
    (fun t ht => Term.meets_loose (hts t ht)) (fun u hu => Term.meets_loose (hus u hu)) hb.loose hac
  refine .each hts' hus' hconf fun c hc _ t ht u hu => ?_
  exact recordWithin_settles hc (hts' t ht) (hus' u hu) (hbound c t u hc (hts' t ht))

/-- Two terms settle. -/
theorem settles_terms (ht : t.meets p = true) (hu : u.meets p = true) (hb : b.Meets p)
    (hac : b.Acyclic) :
    Settles (nestingBound [.term t] [.term u] b) fun depth =>
      record depth (.term t) (.term u) b := by
  have hts : ∀ t' ∈ [t], t'.meets .loose = true := by simpa using Term.meets_loose ht
  have hus : ∀ u' ∈ [u], u'.meets .loose = true := by simpa using Term.meets_loose hu
  obtain ⟨V, H, hconf, ht', hu', hbound⟩ := exists_confined hts hus hb.loose hac
  have ht' := ht' t (by simp)
  exact recordWithin_settles hconf ht' (hu' u (by simp)) (hbound b t u hconf ht')

/-- Two literals settle. -/
theorem settles_literals {l m : Literal} (hl : l.meets p = true) (hm : m.meets p = true)
    (hb : b.Meets p) (hac : b.Acyclic) :
    Settles (nestingBound (l.args.map .term) (m.args.map .term) b) fun depth =>
      record depth (.literal l) (.literal m) b := by
  unfold record
  dsimp only
  split
  · exact settles_lists (Literal.meets_iff.1 hl).2 (Literal.meets_iff.1 hm).2 hb hac
  · exact .pure _

/-- Two literals unify or do not. -/
theorem unifyLiterals_total {l m : Literal} (hl : l.meets p = true) (hm : m.meets p = true)
    (hb : b.Meets p) (hac : b.Acyclic) : ∃ r, unifyLiterals l m b = .ok r :=
  (settles_literals hl hm hb hac).exists_answer (record_answer (.literal l) (.literal m) b)

end HornSearch
