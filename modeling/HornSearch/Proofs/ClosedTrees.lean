/-
HornSearch/Proofs/ClosedTrees.lean

Assignments that close a proof tree.  The search records each node under the bindings
of the moment, and a proof tree is read under the final ones.  The two agree since
bindings are only added: an assignment that solves the final environment solves every
earlier one, and so makes each goal equal to the fact or the head that closed it.

`Closes kb σ limit depth goals nodes` says that of a whole forest, without mention of
bindings or serials; `Proved.closes` is the induction over the search.
-/
import HornSearch.Proofs.Queries

namespace HornSearch

variable {kb : KnowledgeBase} {σ : Assignment} {limit : Option Nat} {depth : Nat}
variable {goals : List Literal} {nodes : List ProofNode} {n m : Int} {b c : Bindings}

/-- A rule whose variables are replaced by others, one by one. -/
def Rule.IsVariant (copy r : Rule) : Prop :=
  ∃ ρ, copy = r.rename ρ ∧ ∀ v ∈ r.occurrences, ∀ w ∈ r.occurrences, ρ v = ρ w → v = w

/-- Under the assignment each goal is the fact that closes it or the head of a variant
of a rule, whose body the children close one level deeper. -/
inductive Closes (kb : KnowledgeBase) (σ : Assignment) (limit : Option Nat) :
    Nat → List Literal → List ProofNode → Prop where
  | nil {depth : Nat} : Closes kb σ limit depth [] []
  | fact {depth : Nat} {goal fact : Literal} {goals : List Literal} {nodes : List ProofNode} :
      (∀ N, limit = some N → depth ≤ N) → fact ∈ kb.facts →
      (goal.instantiate σ == fact) = true → Closes kb σ limit depth goals nodes →
      Closes kb σ limit depth (goal :: goals) (.byFact goal fact depth :: nodes)
  | rule {depth : Nat} {goal : Literal} {goals : List Literal} {rule copy : Rule}
      {children nodes : List ProofNode} :
      (∀ N, limit = some N → depth ≤ N) → rule ∈ kb.rules → copy.IsVariant rule →
      copy.meets .regular = true → (goal.instantiate σ == copy.head.instantiate σ) = true →
      Closes kb σ limit (depth + 1) copy.body children →
      Closes kb σ limit depth goals nodes →
      Closes kb σ limit depth (goal :: goals) (.byRule goal copy children depth :: nodes)

theorem Copied.isVariant {r copy : Rule} (h : Copied r copy n m) : copy.IsVariant r := by
  obtain ⟨ρ, hcopy, -, hρ⟩ := h.exists_freshens
  exact ⟨ρ, hcopy, hρ.injective⟩

/-- **Later bindings only refine earlier ones**: what solves the final environment
solves the starting one and closes the whole forest. -/
theorem Proved.closes (hkb : kb.Meets .regular) (h : Proved kb limit depth goals b n c nodes m)
    (hσ : σ.Meets .regular) (hs : Solves σ c) :
    Solves σ b ∧ Closes kb σ limit depth goals nodes := by
  induction h with
  | nil _ => exact ⟨hs, .nil⟩
  | @fact depth goal fact goals b c d nodes n m hlimit hfact hu _ ih =>
    obtain ⟨hc, hrest⟩ := ih hs
    obtain ⟨hb, heq⟩ := hu.sound hσ hc
    rw [Literal.instantiate_of_isGround (hkb.facts fact hfact).2] at heq
    exact ⟨hb, .fact hlimit hfact heq hrest⟩
  | rule hlimit hrule _ hcopy hu _ _ ihbody ih =>
    obtain ⟨hd, hrest⟩ := ih hs
    obtain ⟨hc, hbody⟩ := ihbody hd
    obtain ⟨hb, heq⟩ := hu.sound hσ hc
    exact ⟨hb, .rule hlimit hrule hcopy.isVariant hcopy.copy_regular heq hbody hrest⟩

end HornSearch
