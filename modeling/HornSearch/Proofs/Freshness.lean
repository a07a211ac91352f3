/-
HornSearch/Proofs/Freshness.lean

Serials rise along a search.  A journal is orderly (`Orderly n m`) if the copies in it
have serials from `n` on and below `m`, if each copy has higher serials than all
variables in play when it is made, and if later copies have higher serials than
earlier ones.  Orderly journals can be put one behind the other.

`Yields s n P` is the claim about a computation `s` of the search that the other
modules make: if the source of serials stands at the whole number `n`, then in the
end, whatever becomes of the computation, the source stands at a whole number, the
journal is orderly between the two, and what is proved satisfies `P`.  There is one
rule for each way of building computations, and `yields_copy` is the only one about a
step that draws serials.
-/
import HornSearch.Proofs.FreshCopies
import HornSearch.Proofs.Journal

namespace HornSearch

variable {α β : Type} {n m k : Int}

/-! ### Orderly journals -/

namespace Step

/-- The variables of the copy that is made in the step, if it is one that copies. -/
def fresh : Step → List Variable
  | .visited _ _ _ => []
  | .copied _ _ _ copy => copy.occurrences

/-- The variables in play: those of the goal, of the pending goals, and of the keys and
the values of the bindings. -/
def inPlay : Step → List Variable
  | .visited goal _ b =>
    goal.occurrences ++ Item.variablesHeld b.keys ++ Item.variablesHeld b.values
  | .copied goal pending b _ => goal.occurrences ++ Item.variablesHeld pending ++
    Item.variablesHeld b.keys ++ Item.variablesHeld b.values

end Step

/-- Every variable of the first list has a smaller serial than every one of the
second. -/
def Precede (vs ws : List Variable) : Prop := ∀ v ∈ vs, ∀ w ∈ ws, v.Before w

theorem Precede.not_mem {vs ws : List Variable} (h : Precede vs ws) {v : Variable}
    (hw : v ∈ ws) : v ∉ vs :=
  fun hv => (h v hv v hw).ne rfl

/-- The copies in the journal have rising serials from `n` on and below `m`, each of
them above what is in play. -/
structure Orderly (n m : Int) (steps : List Step) : Prop where
  le : n ≤ m
  drawn : ∀ s ∈ steps, ∀ v ∈ s.fresh, v.AtLeast n ∧ v.Below m
  apart : ∀ s ∈ steps, Precede s.inPlay s.fresh
  rising : steps.Pairwise fun s t => Precede s.fresh t.fresh

namespace Orderly

theorem nil (h : n ≤ m) : Orderly n m [] :=
  ⟨h, by simp, by simp, List.Pairwise.nil⟩

theorem append {steps steps' : List Step} (h : Orderly n k steps) (h' : Orderly k m steps') :
    Orderly n m (steps ++ steps') where
  le := h.le.trans h'.le
  drawn s hs v hv := by
    rcases List.mem_append.1 hs with hs | hs
    · exact ⟨(h.drawn s hs v hv).1, (h.drawn s hs v hv).2.mono h'.le⟩
    · exact ⟨(h'.drawn s hs v hv).1.mono h.le, (h'.drawn s hs v hv).2⟩
  apart := List.forall_mem_append.2 ⟨h.apart, h'.apart⟩
  rising := by
    refine List.pairwise_append.2 ⟨h.rising, h'.rising, fun s hs t ht v hv w hw => ?_⟩
    exact (h.drawn s hs v hv).2.before (h'.drawn t ht w hw).1

end Orderly

/-! ### What a computation yields -/

/-- From the serial `n` on, the computation keeps the journal orderly, and what it
proves satisfies `P` together with the serial that is next then. -/
def Yields (s : Journaled α) (n : Int) (P : Int → α → Prop) : Prop :=
  ∀ trail, trail.source = ⟨.int n⟩ → ∃ m, (s.erase trail).2.source = ⟨.int m⟩ ∧
    Orderly n m (s.steps trail) ∧ ∀ a, (s.erase trail).1 = .proved a → P m a

/-- The computation leaves the source of serials as it is. -/
def Search.KeepsSource (s : Search α) : Prop := ∀ trail, (s trail).2.source = trail.source

namespace Search

theorem keepsSource_ofChecked (c : Checked α) : (ofChecked c).KeepsSource := by
  intro trail
  cases c <;> rfl

theorem keepsSource_record (event : Event) : (record event).KeepsSource := by
  intro trail
  unfold record
  split
  · rfl
  · split <;> rfl

theorem KeepsSource.bind {s : Search α} {next : α → Search β} (hs : s.KeepsSource)
    (hnext : ∀ a, (next a).KeepsSource) : (s >>= next).KeepsSource := by
  intro trail
  have h := hs trail
  show (Search.bind s next trail).2.source = trail.source
  rcases e : s trail with ⟨_ | _ | _, t⟩
  · simp only [Search.bind, e]
    rw [hnext, ← h, e]
  · simp only [Search.bind, e]
    rw [← h, e]
  · simp only [Search.bind, e]
    rw [← h, e]

theorem ofChecked_eq_proved {c : Checked α} {a : α} {trail : Trail}
    (h : (ofChecked c trail).1 = .proved a) : c = .ok a := by
  cases c with
  | ok a' =>
    obtain rfl := Outcome.proved.inj h
    rfl
  | error e => cases h

end Search

section Rules

open Journaled

variable {P Q : Int → α → Prop} {s other : Journaled α}

theorem Yields.mono (h : Yields s n P) (hPQ : ∀ m a, n ≤ m → P m a → Q m a) : Yields s n Q := by
  intro trail htrail
  obtain ⟨m, hm, ho, hP⟩ := h trail htrail
  exact ⟨m, hm, ho, fun a ha => hPQ m a ho.le (hP a ha)⟩

theorem yields_lift {t : Search α} (hkeeps : t.KeepsSource)
    (hP : ∀ trail a, (t trail).1 = .proved a → P n a) : Yields (lift t) n P := by
  intro trail htrail
  exact ⟨n, (hkeeps trail).trans htrail, .nil le_rfl, hP trail⟩

theorem yields_pure {a : α} (h : P n a) : Yields (pure a) n P := by
  intro trail htrail
  refine ⟨n, htrail, .nil le_rfl, fun a' ha' => ?_⟩
  obtain rfl := Outcome.proved.inj ha'
  exact h

theorem yields_ofChecked {c : Checked α} (h : ∀ a, c = .ok a → P n a) :
    Yields (lift (Search.ofChecked c)) n P :=
  yields_lift (Search.keepsSource_ofChecked c) fun _ a ha => h a (Search.ofChecked_eq_proved ha)

theorem yields_record (event : Event) :
    Yields (lift (Search.record event)) n fun m _ => m = n :=
  yields_lift (Search.keepsSource_record event) fun _ _ _ => rfl

theorem yields_fail : Yields (lift Search.fail) n P := by
  refine yields_lift (fun _ => rfl) fun _ _ h => ?_
  cases h

theorem yields_stop (fault : Fault) : Yields (lift (Search.stop fault)) n P := by
  refine yields_lift (fun _ => rfl) fun _ _ h => ?_
  cases h

theorem yields_visited (goal : Literal) (depth : Nat) (b : Bindings) :
    Yields (note (.visited goal depth b)) n fun m _ => m = n := by
  intro trail htrail
  refine ⟨n, htrail, ⟨le_rfl, ?_, ?_, List.pairwise_singleton _ _⟩, fun _ _ => rfl⟩
  · rintro s hs v hv
    obtain rfl := List.mem_singleton.1 hs
    cases hv
  · rintro s hs v hv w hw
    obtain rfl := List.mem_singleton.1 hs
    cases hw

theorem Yields.bind {Q : Int → β → Prop} {next : α → Journaled β} (hs : Yields s n P)
    (hnext : ∀ m a, n ≤ m → P m a → Yields (next a) m Q) : Yields (s >>= next) n Q := by
  intro trail htrail
  obtain ⟨k, hk, ho, hP⟩ := hs trail htrail
  show ∃ m, (Journaled.bind s next trail).1.2.source = ⟨.int m⟩ ∧
    Orderly n m (Journaled.bind s next trail).2 ∧
    ∀ a, (Journaled.bind s next trail).1.1 = .proved a → Q m a
  unfold erase steps at *
  -- by what becomes of the first computation; only a proof goes on to the second
  rcases e : s trail with ⟨⟨a | - | fault, t⟩, js⟩
  · rw [e] at hk ho hP
    obtain ⟨m, hm, ho', hQ⟩ := hnext k a ho.le (hP a rfl) t hk
    simp only [Journaled.bind, e]
    exact ⟨m, hm, ho.append ho', hQ⟩
  · rw [e] at hk ho
    simp only [Journaled.bind, e]
    refine ⟨k, hk, ho, fun _ h => ?_⟩
    cases h
  · rw [e] at hk ho
    simp only [Journaled.bind, e]
    refine ⟨k, hk, ho, fun _ h => ?_⟩
    cases h

/-- Recording may be asked for or not. -/
theorem yields_recordIf {c : Bool} {event : Event} (h : Yields s n P) :
    Yields (if c = true then (do lift (Search.record event); s) else s) n P := by
  cases c with
  | false => exact h
  | true =>
    refine (yields_record event).bind ?_
    rintro m - - rfl
    exact h

theorem Yields.orElse (hs : Yields s n P) (hother : ∀ m, n ≤ m → Yields other m P) :
    Yields (Journaled.orElse s other) n P := by
  intro trail htrail
  obtain ⟨k, hk, ho, hP⟩ := hs trail htrail
  unfold erase steps at *
  -- a failure goes on to the other one from where the source stands then
  rcases e : s trail with ⟨⟨a | - | fault, t⟩, js⟩
  · rw [e] at hk ho hP
    simp only [Journaled.orElse, e]
    exact ⟨k, hk, ho, hP⟩
  · rw [e] at hk ho
    obtain ⟨m, hm, ho', hP'⟩ := hother k ho.le t hk
    simp only [Journaled.orElse, e]
    exact ⟨m, hm, ho.append ho', hP'⟩
  · rw [e] at hk ho
    simp only [Journaled.orElse, e]
    refine ⟨k, hk, ho, fun _ h => ?_⟩
    cases h

/-- **A copy is fresh** with respect to whatever has smaller serials than the source. -/
theorem yields_copy {goal : Literal} {pending : List Item} {b : Bindings} {rule : Rule}
    (hr : rule.meets .regular = true)
    (hplay : ∀ copy, ∀ v ∈ (Step.copied goal pending b copy).inPlay, v.Below n) :
    Yields (copy goal pending b rule) n fun m copy =>
      rule.standardizeApart ⟨.int n⟩ = .ok (copy, ⟨.int m⟩) := by
  intro trail htrail
  obtain ⟨ρ, m, hcopy, hlt, hρ⟩ := Rule.standardizeApart_eq hr n
  have hfresh : Search.freshCopy rule trail =
      (.proved (rule.rename ρ), { trail with source := ⟨.int m⟩ }) := by
    rw [Search.freshCopy, htrail, hcopy]
  have hrun : Journaled.copy goal pending b rule trail =
      ((.proved (rule.rename ρ), { trail with source := ⟨.int m⟩ }),
        [.copied goal pending b (rule.rename ρ)]) := by
    show Journaled.bind (lift (Search.freshCopy rule)) _ trail = _
    simp only [Journaled.bind, lift, hfresh]
    rfl
  unfold erase steps
  rw [hrun]
  refine ⟨m, rfl, ⟨hlt.le, ?_, ?_, List.pairwise_singleton _ _⟩, ?_⟩
  · intro s hs v hv
    obtain rfl := List.mem_singleton.1 hs
    exact hρ.fresh hv
  · intro s hs v hv w hw
    obtain rfl := List.mem_singleton.1 hs
    exact (hplay _ v hv).before (hρ.fresh hw).1
  · intro copy hproved
    obtain rfl := Outcome.proved.inj hproved
    exact hcopy

end Rules

end HornSearch
