/-
HornSearch/Proofs/FreshCopies.lean

Fresh copies of regular rules.  Whole numbers as serials are ordered as numbers, so a
source of serials that stands at `n` skips to the maximum of `n` and the serials of
the rule, and hands out consecutive numbers from there.

`Freshens ρ r n m` says what a copy of `r` is: the variables of `r` are replaced, one
by one, by variables of the same names, whose serials are above all those in `r` and
lie between `n` and `m`.  `Rule.standardizeApart_eq` gives such a replacement for each
regular rule and each source.  The list of its images is built variable by variable
(`Images`), and no image is given twice, though most of them share their serial; how the list
comes about is kept in `Rule.Copying`.

Variables are told apart by their serials (`Variable.Before`), and for that by a
number between them (`Variable.Below`, `Variable.AtLeast`).
-/
import HornSearch.Renaming
import HornSearch.Proofs.Instantiation
import HornSearch.Proofs.Variables
import Mathlib.Algebra.Order.Ring.Int

namespace HornSearch

/-! ### Whole numbers as serials -/

namespace Value

theorem less_int_iff {m n : Int} : (Value.int m).less (.int n) = true ↔ m < n := by
  have h : Dyadic.ofInt m < Dyadic.ofInt n ↔ m < n := by
    show ((m : Int) : Dyadic) < ((n : Int) : Dyadic) ↔ m < n
    rw [← Dyadic.toRat_lt_toRat_iff, Dyadic.toRat_intCast, Dyadic.toRat_intCast]
    exact Rat.intCast_lt_intCast
  simpa [less, quantity?, Quantity.ofInt, Quantity.lt] using h

theorem isAtLeast_int_iff {m n : Int} : (Value.int m).isAtLeast (.int n) = true ↔ n ≤ m := by
  have h : (Value.int m).isAtLeast (.int n) = !(Value.int m).less (.int n) := rfl
  rw [h, Bool.not_eq_true', Bool.eq_false_iff, ne_eq, less_int_iff, not_lt]

end Value

namespace Variable

variable {v w : Variable} {m n : Int}

/-- The serial is a whole number below `n`. -/
def Below (n : Int) (v : Variable) : Prop := ∃ k : Int, v.serial = .int k ∧ k < n

/-- The serial is a whole number, `n` at least. -/
def AtLeast (n : Int) (v : Variable) : Prop := ∃ k : Int, v.serial = .int k ∧ n ≤ k

theorem Below.mono (h : v.Below m) (hmn : m ≤ n) : v.Below n := by
  obtain ⟨k, hk, hlt⟩ := h
  exact ⟨k, hk, hlt.trans_le hmn⟩

theorem AtLeast.mono (h : v.AtLeast n) (hmn : m ≤ n) : v.AtLeast m := by
  obtain ⟨k, hk, hle⟩ := h
  exact ⟨k, hk, hmn.trans hle⟩

/-- The serials are whole numbers, the first one the smaller. -/
def Before (v w : Variable) : Prop :=
  ∃ j k : Int, v.serial = .int j ∧ w.serial = .int k ∧ j < k

theorem Below.before (hv : v.Below n) (hw : w.AtLeast n) : v.Before w := by
  obtain ⟨j, hj, hlt⟩ := hv
  obtain ⟨k, hk, hle⟩ := hw
  exact ⟨j, k, hj, hk, hlt.trans_le hle⟩

theorem Before.ne (h : v.Before w) : v ≠ w := by
  rintro rfl
  obtain ⟨j, k, hj, hk, hlt⟩ := h
  obtain rfl := Value.int.inj (hj.symm.trans hk)
  exact lt_irrefl j hlt

end Variable

/-- The largest of some whole numbers, or zero, is no less than any of them, and the least
such number but for zero. -/
theorem largestSerial_eq {serials : List Value} (h : ∀ a ∈ serials, ∃ k : Int, a = .int k) :
    ∃ k : Int, largestSerial serials = .ok (.int k) ∧ (∀ j : Int, .int j ∈ serials → j ≤ k) ∧
      ∀ m : Int, 0 ≤ m → (∀ j : Int, .int j ∈ serials → j ≤ m) → k ≤ m := by
  cases serials with
  | nil => exact ⟨0, rfl, by simp, fun m hm _ => hm⟩
  | cons first rest =>
    obtain ⟨⟨k, rfl⟩, hrest⟩ := List.forall_mem_cons.1 h
    rw [largestSerial]
    have hstep : ∀ i k : Int, (if (Value.int i).comparable (.int k) then
        .ok (if (Value.int k).less (.int i) then .int i else .int k)
        else .error .wrongKind : Checked Value) = .ok (.int (max k i)) := by
      intro i k
      have hc : (Value.int i).comparable (.int k) = true := rfl
      rw [if_pos hc]
      by_cases hki : k < i
      · rw [if_pos (Value.less_int_iff.2 hki), max_eq_right hki.le]
      · rw [if_neg (mt Value.less_int_iff.1 hki), max_eq_left (not_lt.1 hki)]
    -- over the rest, with the largest so far in the place of the first
    clear h
    induction rest generalizing k with
    | nil =>
      refine ⟨k, rfl, fun j hj => ?_, fun m _ hm => hm k (List.mem_singleton_self _)⟩
      obtain rfl := Value.int.inj (List.mem_singleton.1 hj)
      exact le_rfl
    | cons a rest ih =>
      obtain ⟨⟨i, rfl⟩, hrest'⟩ := List.forall_mem_cons.1 hrest
      obtain ⟨m, hm, hle, hleast⟩ := ih hrest' (max k i)
      refine ⟨m, ?_, ?_, fun m' hm' hbound => hleast m' hm' fun j hj => ?_⟩
      · rw [List.foldlM_cons, hstep, ok_bind, hm]
      · have hmax := hle (max k i) (by simp)
        intro j hj
        rcases List.mem_cons.1 hj with hj | hj
        · obtain rfl := Value.int.inj hj
          exact (le_max_left _ _).trans hmax
        · rcases List.mem_cons.1 hj with hj | hj
          · obtain rfl := Value.int.inj hj
            exact (le_max_right _ _).trans hmax
          · exact hle j (List.mem_cons_of_mem _ hj)
      · rcases List.mem_cons.1 hj with hj | hj
        · obtain rfl := Value.int.inj hj
          exact max_le (hbound k (by simp)) (hbound i (by simp))
        · exact hbound j (List.mem_cons_of_mem _ (List.mem_cons_of_mem _ hj))

namespace SerialSource

/-- Skipping past a serial leads to the number after it, unless the source is there
already. -/
theorem skipPast_int (n k : Int) :
    (⟨.int n⟩ : SerialSource).skipPast (.int k) = .ok ⟨.int (max n (k + 1))⟩ := by
  have hk : (Value.int k).isNumber = true := rfl
  rw [skipPast, if_neg (by simp [hk])]
  by_cases h : n ≤ k
  · rw [if_pos (Value.isAtLeast_int_iff.2 h), max_eq_right (by omega)]
    rfl
  · rw [if_neg (mt Value.isAtLeast_int_iff.1 h), max_eq_left (by omega)]

theorem draw_int (n : Int) : (⟨.int n⟩ : SerialSource).draw = (.int n, ⟨.int (n + 1)⟩) := rfl

end SerialSource

/-! ### The images of the variables -/

/-- Images for variables, where some names were met before: they have the names of their
variables, no two of them are the same, and they carry the shared serial if the name is
new, and otherwise one from `n` on and below `m`. -/
structure Images (vs : List Variable) (names : List Value) (shared n m : Int)
    (images : Renaming) : Prop where
  domain : images.map (·.1) = vs
  nodup : (images.map (·.2)).Nodup
  name : ∀ e ∈ images, e.2.name = e.1.name
  serial : ∀ e ∈ images, ∃ k : Int, e.2.serial = .int k ∧
    ((k = shared ∧ names.any e.1.name.alike = false) ∨ (n ≤ k ∧ k < m))

namespace Images

variable {v : Variable} {vs : List Variable} {names : List Value} {shared n m : Int}
variable {images : Renaming}

/-- An image whose serial is drawn just for it. -/
theorem cons_drawn (h : Images vs names shared (n + 1) m images) (hshared : shared < n)
    (hm : n < m) : Images (v :: vs) names shared n m ((v, ⟨v.name, .int n⟩) :: images) where
  domain := by rw [List.map_cons, h.domain]
  nodup := by
    rw [List.map_cons, List.nodup_cons]
    refine ⟨fun hmem => ?_, h.nodup⟩
    obtain ⟨e, he, hev⟩ := List.mem_map.1 hmem
    obtain ⟨k, hk, hcase⟩ := h.serial e he
    obtain rfl : n = k := by simpa [hev] using hk
    omega
  name := List.forall_mem_cons.2 ⟨rfl, h.name⟩
  serial := by
    refine List.forall_mem_cons.2 ⟨⟨n, rfl, .inr ⟨le_rfl, hm⟩⟩, fun e he => ?_⟩
    obtain ⟨k, hk, hcase⟩ := h.serial e he
    exact ⟨k, hk, hcase.imp_right fun h => ⟨by omega, h.2⟩⟩

/-- An image with the shared serial, for a name that is met first. -/
theorem cons_shared (h : Images vs (v.name :: names) shared n m images) (hv : v.isRegular = true)
    (hshared : shared < n) (hnew : names.any v.name.alike = false) :
    Images (v :: vs) names shared n m ((v, ⟨v.name, .int shared⟩) :: images) where
  domain := by rw [List.map_cons, h.domain]
  nodup := by
    rw [List.map_cons, List.nodup_cons]
    refine ⟨fun hmem => ?_, h.nodup⟩
    obtain ⟨e, he, hev⟩ := List.mem_map.1 hmem
    obtain ⟨k, hk, hcase⟩ := h.serial e he
    obtain rfl : shared = k := by simpa [hev] using hk
    -- the name of `v` is met by now, so that its image is not shared
    have hmet : (v.name :: names).any e.1.name.alike = true := by
      obtain ⟨s, i, rfl⟩ := Variable.isRegular_iff.1 hv
      rw [← h.name e he, hev]
      simp
    rcases hcase with ⟨-, hnew⟩ | hcase
    · exact Bool.false_ne_true (hnew.symm.trans hmet)
    · omega
  name := List.forall_mem_cons.2 ⟨rfl, h.name⟩
  serial := by
    refine List.forall_mem_cons.2 ⟨⟨shared, rfl, .inl ⟨rfl, hnew⟩⟩, fun e he => ?_⟩
    obtain ⟨k, hk, hcase⟩ := h.serial e he
    exact ⟨k, hk, hcase.imp_left fun h => ⟨h.1, (Bool.or_eq_false_iff.1 h.2).2⟩⟩

theorem exists_serial (h : Images vs names shared n m images) (hshared : shared < n)
    (hm : n ≤ m) {e : Variable × Variable} (he : e ∈ images) :
    ∃ k : Int, e.2.serial = .int k ∧ shared ≤ k ∧ k < m := by
  obtain ⟨k, hk, hcase⟩ := h.serial e he
  exact ⟨k, hk, by omega, by omega⟩

end Images

/-- A source that stands past the shared serial gives images for regular variables. -/
theorem freshen_eq {vs : List Variable} (hvs : ∀ v ∈ vs, v.isRegular = true) {shared n : Int}
    (hn : shared < n) (names : List Value) :
    ∃ images m, freshen (.int shared) vs names ⟨.int n⟩ = (images, ⟨.int m⟩) ∧ n ≤ m ∧
      Images vs names shared n m images := by
  -- the names that are met grow along the list, and so does the serial that is drawn next
  induction vs generalizing n names with
  | nil => exact ⟨[], n, rfl, le_rfl, rfl, List.nodup_nil, by simp, by simp⟩
  | cons v vs ih =>
    obtain ⟨hv, hvs⟩ := List.forall_mem_cons.1 hvs
    cases hmet : names.any v.name.alike with
    | true =>
      obtain ⟨images, m, h, hle, himages⟩ := ih hvs (hn.trans (lt_add_one n)) names
      refine ⟨_, m, ?_, by omega, himages.cons_drawn (v := v) hn (by omega)⟩
      simp only [freshen, if_pos hmet, SerialSource.draw_int, h]
    | false =>
      obtain ⟨images, m, h, hle, himages⟩ := ih hvs hn (v.name :: names)
      refine ⟨_, m, ?_, hle, himages.cons_shared hv hn hmet⟩
      simp only [freshen, hmet, Bool.false_eq_true, if_false, h]

/-- The image of a regular variable is the one that is listed for it. -/
theorem Renaming.apply_mem {images : Renaming} {v : Variable} (hv : v ∈ images.map (·.1))
    (hreg : ∀ w ∈ images.map (·.1), w.isRegular = true) : (v, images.apply v) ∈ images := by
  obtain ⟨e, he, rfl⟩ := List.mem_map.1 hv
  have hbeq := (Variable.beq_iff_eq_of_isRegular (hreg e.1 hv) (hreg e.1 hv)).2 rfl
  rcases hf : images.find? (·.1 == e.1) with _ | ⟨w, x⟩
  · exact absurd hbeq (by simpa using List.find?_eq_none.1 hf e he)
  · have hmem := List.mem_of_find?_eq_some hf
    have hw : (w == e.1) = true := by simpa using List.find?_some hf
    obtain rfl := (Variable.beq_iff_eq_of_isRegular
      (hreg w (List.mem_map.2 ⟨_, hmem, rfl⟩)) (hreg e.1 hv)).1 hw
    rw [Renaming.apply, hf]
    exact hmem

/-! ### Copies -/

/-- The replacement of the variables of a rule by fresh ones: one by one, with the same
names, and with serials above those in the rule, from `n` on and below `m`. -/
structure Freshens (ρ : Variable → Variable) (r : Rule) (n m : Int) : Prop where
  injective : ∀ v ∈ r.occurrences, ∀ w ∈ r.occurrences, ρ v = ρ w → v = w
  name : ∀ v ∈ r.occurrences, (ρ v).name = v.name
  atLeast : ∀ v ∈ r.occurrences, (ρ v).AtLeast n
  below : ∀ v ∈ r.occurrences, (ρ v).Below m
  above : ∀ v ∈ r.occurrences, ∀ w ∈ r.occurrences, v.Before (ρ w)

namespace Freshens

variable {ρ : Variable → Variable} {r : Rule} {n m : Int}

/-- The variables of the copy are fresh. -/
theorem fresh (h : Freshens ρ r n m) {v : Variable} (hv : v ∈ (r.rename ρ).occurrences) :
    v.AtLeast n ∧ v.Below m := by
  obtain ⟨w, hw, rfl⟩ := Rule.mem_occurrences_rename.1 hv
  exact ⟨h.atLeast w hw, h.below w hw⟩

/-- A copy of a regular rule is regular. -/
theorem regular (h : Freshens ρ r n m) (hr : r.meets .regular = true) :
    (r.rename ρ).meets .regular = true := by
  rw [Rule.rename_eq_instantiate]
  refine Rule.meets_instantiate hr fun v hv => ?_
  have hreg : v.isRegular = true := Rule.var_of_mem_occurrences (p := .regular) hr hv
  obtain ⟨s, j, hv'⟩ := Variable.isRegular_iff.1 hreg
  obtain ⟨k, hk, -⟩ := h.atLeast v hv
  have hname : (ρ v).name = .str s := by rw [h.name v hv, hv']
  exact Variable.isRegular_iff.2 ⟨s, k, by rw [← hname, ← hk]⟩

end Freshens

/-- The images of the variables of a rule freshen it, if the shared serial is past those
in the rule. -/
theorem Images.freshens {r : Rule} {n m shared : Int} {vs : List Variable} {images : Renaming}
    (h : Images vs [] shared (shared + 1) m images) (hm : shared < m) (hn : n ≤ shared)
    (hmem : ∀ v, v ∈ vs ↔ v ∈ r.occurrences) (hreg : ∀ v ∈ vs, v.isRegular = true)
    (htop : ∀ v ∈ vs, v.Below shared) : Freshens images.apply r n m := by
  have himage : ∀ v ∈ r.occurrences, (v, images.apply v) ∈ images := by
    intro v hv
    rw [← hmem] at hv
    exact Renaming.apply_mem (h.domain ▸ hv) (h.domain ▸ hreg)
  have hserial : ∀ v ∈ r.occurrences, ∃ k : Int, (images.apply v).serial = .int k ∧
      shared ≤ k ∧ k < m :=
    fun v hv => h.exists_serial (lt_add_one shared) (by omega) (himage v hv)
  refine ⟨fun v hv w hw hvw => ?_, fun v hv => h.name _ (himage v hv), fun v hv => ?_,
    fun v hv => ?_, fun v hv w hw => ?_⟩
  · have hpair := List.inj_on_of_nodup_map h.nodup (himage v hv) (himage w hw) hvw
    exact (Prod.ext_iff.1 hpair).1
  · obtain ⟨k, hk, hle, -⟩ := hserial v hv
    exact ⟨k, hk, hn.trans hle⟩
  · obtain ⟨k, hk, -, hlt⟩ := hserial v hv
    exact ⟨k, hk, hlt⟩
  · obtain ⟨k, hk, hle, -⟩ := hserial w hw
    exact (htop v ((hmem v).2 hv)).before ⟨k, hk, hle⟩

namespace Rule

variable {r : Rule}

theorem sortedVariables_eq (hreg : ∀ v ∈ r.occurrences, v.isRegular = true) :
    ∃ vs, r.sortedVariables = .ok vs ∧ vs.Nodup ∧ ∀ v, v ∈ vs ↔ v ∈ r.occurrences := by
  have hdist : ∀ v ∈ Variable.distinct r.occurrences, v.isRegular = true :=
    fun v hv => hreg v ((Variable.mem_distinct_iff hreg).1 hv)
  obtain ⟨vs, hvs, hperm⟩ := Variable.sorted?_eq_some hdist
  refine ⟨vs, ?_, hperm.nodup_iff.2 (Variable.nodup_distinct hreg),
    fun v => hperm.mem_iff.trans (Variable.mem_distinct_iff hreg)⟩
  have hhash : r.occurrences.all Variable.isHashable = true :=
    List.all_eq_true.2 fun v hv => Variable.isHashable_of_isRegular (hreg v hv)
  rw [sortedVariables, if_pos hhash, hvs]

/-- How a source that stands at `n` makes a copy of a rule.  The variables of the rule are `vs`
and their largest serial, or zero, is `top`; the shared serial is the first one past both; the
variables are given the images, and the source stands at `m` then. -/
structure Copying (r : Rule) (n top m : Int) (vs : List Variable) (images : Renaming) :
    Prop where
  nodup : vs.Nodup
  mem : ∀ v, v ∈ vs ↔ v ∈ r.occurrences
  largest : largestSerial (vs.map (·.serial)) = .ok (.int top)
  below : ∀ v ∈ vs, v.Below (max n (top + 1))
  freshened : freshen (.int (max n (top + 1))) vs [] ⟨.int (max n (top + 1) + 1)⟩ =
    (images, ⟨.int m⟩)
  listed : Images vs [] (max n (top + 1)) (max n (top + 1) + 1) m images
  lt : max n (top + 1) < m
  result : r.standardizeApart ⟨.int n⟩ = .ok (r.rename images.apply, ⟨.int m⟩)

theorem exists_copying (hreg : ∀ v ∈ r.occurrences, v.isRegular = true) (n : Int) :
    ∃ top m vs images, Copying r n top m vs images := by
  obtain ⟨vs, hsorted, hnodup, hmem⟩ := sortedVariables_eq hreg
  have hvs : ∀ v ∈ vs, v.isRegular = true := fun v hv => hreg v ((hmem v).1 hv)
  have hint : ∀ v ∈ vs, ∃ k : Int, v.serial = .int k := by
    intro v hv
    obtain ⟨s, k, rfl⟩ := Variable.isRegular_iff.1 (hvs v hv)
    exact ⟨k, rfl⟩
  have hserials : ∀ a ∈ vs.map (·.serial), ∃ k : Int, a = .int k := by
    intro a ha
    obtain ⟨v, hv, rfl⟩ := List.mem_map.1 ha
    exact hint v hv
  obtain ⟨top, htop, hle, -⟩ := largestSerial_eq hserials
  have hbelow : ∀ v ∈ vs, v.Below (max n (top + 1)) := by
    intro v hv
    obtain ⟨k, hk⟩ := hint v hv
    have hmax := hle k (List.mem_map.2 ⟨v, hv, hk⟩)
    exact ⟨k, hk, by omega⟩
  obtain ⟨images, m, hfreshen, hm, himages⟩ :=
    freshen_eq hvs (lt_add_one (max n (top + 1))) []
  refine ⟨top, m, vs, images, hnodup, hmem, htop, hbelow, hfreshen, himages, by omega, ?_⟩
  rw [standardizeApart, hsorted, ok_bind, htop, ok_bind, SerialSource.skipPast_int, ok_bind]
  simp only [SerialSource.draw_int]
  rw [hfreshen]
  rfl

/-- **A regular rule has a fresh copy** whatever the source stands at. -/
theorem standardizeApart_eq (hr : r.meets .regular = true) (n : Int) :
    ∃ ρ m, r.standardizeApart ⟨.int n⟩ = .ok (r.rename ρ, ⟨.int m⟩) ∧ n < m ∧
      Freshens ρ r n m := by
  have hreg : ∀ v ∈ r.occurrences, v.isRegular = true :=
    fun v hv => var_of_mem_occurrences (p := .regular) hr hv
  obtain ⟨top, m, vs, images, h⟩ := exists_copying hreg n
  have hlt := h.lt
  exact ⟨images.apply, m, h.result, by omega, h.listed.freshens (by omega) (le_max_left _ _)
    h.mem (fun v hv => hreg v ((h.mem v).1 hv)) h.below⟩

end Rule

end HornSearch
