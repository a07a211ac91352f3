/-
HornSearch/Proofs/Totality.lean

Unification is total.  Under an acyclic environment that binds variables to terms it
answers an environment or a failure for all operands, whatever symbols, functors and
predicates they have; only variables are asked to be regular.

The answer by itself would say that no fault reaches the caller.  The record says what
happens on the way: `unify_ends` has one finite list of deeds for all nestings from the
starting one on, so no call is cut short, and in it every call returns, every occurs
check answers, and every variable that is bound was unbound.
-/
import HornSearch.Proofs.MostGeneral

namespace HornSearch

variable {b : Bindings} {x y : Item}

/-- **Unification ends without a fault**: it answers an environment or a failure after
finitely many deeds, and each of them succeeds. -/
theorem unify_ends (h : Matched .loose x y) (hb : b.Meets .loose) (hac : b.Acyclic) :
    ∃ r deeds, unify x y b = .ok r ∧
      (∀ depth, nestingBound x.compared y.compared b ≤ depth →
        record depth x y b = ⟨.ok r, deeds⟩) ∧
      ∀ deed ∈ deeds, deed.Succeeds := by
  obtain ⟨r, deeds, hrun, hs⟩ := h.settles hb hac
  refine ⟨r, deeds, ?_, hrun, hs⟩
  rw [← record_answer]
  exact congrArg Recorded.answer (hrun _ (Nat.le_refl _))

/-- Symbols and functors of any kind: `7(?V, g(?V), NaN)` against `7(g(?W), ?U, ?W)`, where
`?U` stands for `g(?T)` and `?T` for a variable that is free. -/
theorem ends_anySymbols :
    let nan : Value := .float (.nan 0)
    let x : Item := .term (.app (.int 7)
      [.var (.named "V"), .app (.str "g") [.var (.named "V")], .const nan])
    let y : Item := .term (.app (.int 7)
      [.app (.str "g") [.var (.named "W")], .var (.named "U"), .var (.named "W")])
    let b : Bindings := ⟨[(.ofVariable (.named "U"), .term (.app (.str "g") [.var (.named "T")])),
      (.ofVariable (.named "T"), .term (.var (.named "S")))]⟩
    Matched .loose x y ∧ b.Meets .loose ∧ b.Acyclic ∧
      ∃ θ deeds, unify x y b = .ok (some θ) ∧ θ.size = 5 ∧ deeds.length = 13 ∧
        (∀ depth, nestingBound x.compared y.compared b ≤ depth →
          record depth x y b = ⟨.ok (some θ), deeds⟩) ∧
        ∀ deed ∈ deeds, deed.Succeeds := by
  intro nan x y b
  have hxy : Matched .loose x y := .terms rfl rfl
  -- `?U` comes before `?T`, and that before `?S`
  obtain ⟨hb, hac⟩ : b.Meets .loose ∧ b.Acyclic := Bindings.meets_acyclic_ofPairs
    (fun v => if v == .named "U" then 2 else if v == .named "T" then 1 else 0)
    [(.named "U", .app (.str "g") [.var (.named "T")]), (.named "T", .var (.named "S"))]
    (by decide) (by simp [Variable.named])
  obtain ⟨r, deeds, hr, hrun, hs⟩ := unify_ends hxy hb hac
  have hlength : (record (nestingBound x.compared y.compared b) x y b).deeds.length = 13 := rfl
  rw [hrun _ (Nat.le_refl _)] at hlength
  obtain rfl : r = some _ := Except.ok.inj (hr.symm.trans rfl)
  exact ⟨hxy, hb, hac, _, deeds, hr, rfl, hlength, hrun, hs⟩

end HornSearch
