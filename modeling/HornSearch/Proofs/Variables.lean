/-
HornSearch/Proofs/Variables.lean

Sets of regular variables.  On regular variables equality is identity, so
`Variable.distinct` lists the members of a list, each once (`mem_distinct_iff`,
`nodup_distinct`), and `Variable.sorted?` puts any such list in order without losing
or doubling a variable (`sorted?_eq_some`).
-/
import HornSearch.Variable
import Mathlib.Data.List.Nodup

namespace HornSearch.Variable

variable {v w : Variable} {vs : List Variable}

/-- The variable that a user writes by its name. -/
def named (name : String) : Variable := ⟨.str name, .int 0⟩

theorem isHashable_of_isRegular (h : v.isRegular = true) : v.isHashable = true := by
  obtain ⟨name, serial⟩ := v
  cases name <;> cases serial <;> simp_all [isRegular, isHashable, Value.isHashable]

/-- A regular variable has a string for its name and a whole number for its serial. -/
theorem isRegular_iff : v.isRegular = true ↔ ∃ s n, v = ⟨.str s, .int n⟩ := by
  obtain ⟨name, serial⟩ := v
  cases name <;> cases serial <;> simp [isRegular]

theorem contains_iff (hvs : ∀ w ∈ vs, w.isRegular = true) (hv : v.isRegular = true) :
    vs.contains v = true ↔ v ∈ vs := by
  rw [List.contains_eq_any_beq, List.any_eq_true]
  constructor
  · rintro ⟨w, hw, h⟩
    rwa [(beq_iff_eq_of_isRegular hv (hvs w hw)).1 h]
  · intro h
    exact ⟨v, h, (beq_iff_eq_of_isRegular hv hv).2 rfl⟩

/-- Adding variables one by one keeps those that were there, and adds the others
once. -/
theorem foldl_insertNew (hvs : ∀ w ∈ vs, w.isRegular = true) {seen : List Variable}
    (hseen : ∀ w ∈ seen, w.isRegular = true) (hn : seen.Nodup) :
    (vs.foldl insertNew seen).Nodup ∧ ∀ v, v ∈ vs.foldl insertNew seen ↔ v ∈ seen ∨ v ∈ vs := by
  induction vs generalizing seen with
  | nil => simpa using hn
  | cons w vs ih =>
    obtain ⟨hw, hvs⟩ := List.forall_mem_cons.1 hvs
    rw [List.foldl_cons, insertNew]
    by_cases hmem : w ∈ seen
    · rw [if_pos ((contains_iff hseen hw).2 hmem)]
      refine ⟨(ih hvs hseen hn).1, fun v => ?_⟩
      rw [(ih hvs hseen hn).2, List.mem_cons]
      constructor
      · exact Or.imp_right .inr
      · rintro (h | rfl | h)
        exacts [.inl h, .inl hmem, .inr h]
    · have hseen' : ∀ x ∈ seen ++ [w], x.isRegular = true := by
        simpa [or_imp, forall_and] using ⟨hseen, hw⟩
      have hn' : (seen ++ [w]).Nodup :=
        hn.append (List.nodup_singleton w) (by simpa using hmem)
      rw [if_neg fun h => hmem ((contains_iff hseen hw).1 h)]
      refine ⟨(ih hvs hseen' hn').1, fun v => ?_⟩
      rw [(ih hvs hseen' hn').2, List.mem_append, List.mem_singleton, List.mem_cons, or_assoc]

theorem mem_distinct_iff (hvs : ∀ w ∈ vs, w.isRegular = true) :
    v ∈ distinct vs ↔ v ∈ vs := by
  have hnone : ∀ w ∈ ([] : List Variable), w.isRegular = true := by simp
  rw [distinct, (foldl_insertNew hvs hnone .nil).2]
  simp

theorem nodup_distinct (hvs : ∀ w ∈ vs, w.isRegular = true) : (distinct vs).Nodup := by
  have hnone : ∀ w ∈ ([] : List Variable), w.isRegular = true := by simp
  exact (foldl_insertNew hvs hnone .nil).1

theorem comparable_of_isRegular (hv : v.isRegular = true) (hw : w.isRegular = true) :
    v.comparable w = true := by
  obtain ⟨s, m, rfl⟩ := isRegular_iff.1 hv
  obtain ⟨t, n, rfl⟩ := isRegular_iff.1 hw
  simp [comparable, Value.comparable, Value.isNumber]

theorem allComparable_of_isRegular (hvs : ∀ w ∈ vs, w.isRegular = true) :
    allComparable vs = true := by
  induction vs with
  | nil => rfl
  | cons v vs ih =>
    obtain ⟨hv, hvs⟩ := List.forall_mem_cons.1 hvs
    rw [allComparable, ih hvs, Bool.and_true, List.all_eq_true]
    exact fun w hw => comparable_of_isRegular hv (hvs w hw)

/-- Regular variables can be sorted, and sorting only changes their order. -/
theorem sorted?_eq_some (hvs : ∀ w ∈ vs, w.isRegular = true) :
    ∃ ws, sorted? vs = some ws ∧ ws.Perm vs := by
  rw [sorted?, if_pos (allComparable_of_isRegular hvs)]
  exact ⟨_, rfl, List.mergeSort_perm _ _⟩

end HornSearch.Variable
