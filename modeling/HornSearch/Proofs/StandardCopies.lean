/-
HornSearch/Proofs/StandardCopies.lean

What standardizing a rule apart does, to the last serial.  A copy is the rule under a renaming
of its variables, and this renaming is one to one, keeps the names, and is undone by reading
the list of images backwards.  Since all images have serials above those in the rule, none of
them is replaced again: following the images as bindings, to the end of every chain, gives the
copy too.

The draws are counted along the list of variables.  One serial is drawn for all and then one
more for each variable whose name was met before, so there are as many further draws as
variables that are not the first of their name (`freshen_draws`).  A source of whole numbers
hands out consecutive ones (`Draws.eq_consecutive`).

`IsStandardCopy` collects what is wanted, and `standardizeApart_renames` is the main result.
-/
import HornSearch.Proofs.FreshCopies
import HornSearch.Proofs.Renamings
import Mathlib.Data.List.Permutation
import Mathlib.Data.Set.Card

namespace HornSearch

/-! ### Draws -/

namespace SerialSource

/-- The serials are drawn one after the other from the first source, and the second one is
left. -/
inductive Draws : SerialSource → List Value → SerialSource → Prop where
  | none (s : SerialSource) : Draws s [] s
  | next {s s' : SerialSource} {serials : List Value} :
      Draws s.draw.2 serials s' → Draws s (s.draw.1 :: serials) s'

/-- Whole numbers that follow one another. -/
def consecutive (first : Int) (count : Nat) : List Value :=
  (List.range count).map fun i : Nat => .int (first + i)

theorem consecutive_succ (first : Int) (count : Nat) :
    consecutive first (count + 1) = .int first :: consecutive (first + 1) count := by
  rw [consecutive, List.range_succ_eq_map, List.map_cons, List.map_map, consecutive]
  congr 1
  · simp
  · refine List.map_congr_left fun i _ => ?_
    show Value.int (first + ((i + 1 : Nat) : Int)) = .int (first + 1 + i)
    rw [Int.natCast_add, Int.natCast_one, Int.add_comm (i : Int), Int.add_assoc]

theorem lt_of_mem_consecutive {first : Int} {count : Nat} {a : Value}
    (h : a ∈ consecutive first count) : ∃ k : Int, a = .int k ∧ k < first + count := by
  obtain ⟨i, hi, rfl⟩ := List.mem_map.1 h
  have hlt := List.mem_range.1 hi
  exact ⟨_, rfl, by omega⟩

/-- What is drawn from whole numbers are consecutive ones. -/
theorem Draws.eq_consecutive {n : Int} {serials : List Value} {s : SerialSource}
    (h : Draws ⟨.int n⟩ serials s) :
    serials = consecutive n serials.length ∧ s = ⟨.int (n + serials.length)⟩ := by
  induction serials generalizing n with
  | nil =>
    cases h
    exact ⟨rfl, by simp⟩
  | cons a serials ih =>
    cases h with
    | next h =>
      obtain ⟨hserials, hs⟩ := ih h
      refine ⟨?_, ?_⟩
      · rw [List.length_cons, consecutive_succ, ← hserials]
        rfl
      · rw [hs, List.length_cons]
        congr 2
        omega

end SerialSource

/-! ### Names that are met -/

/-- A string is among some values exactly if it is like one of them. -/
theorem Value.any_alike_iff {a : Value} (ha : a.isString = true) {as : List Value} :
    as.any a.alike = true ↔ a ∈ as := by
  rw [List.any_eq_true]
  constructor
  · rintro ⟨c, hc, hac⟩
    rwa [← Term.label_eq_of_alike ha hac]
  · exact fun h => ⟨a, h, Term.alike_label_refl ha⟩

open Classical in
/-- The draws for the variables of a list: what is drawn are the serials of the images besides
the shared one, and there is one draw for each variable that is not the first of its name. -/
theorem freshen_draws {vs : List Variable} (hvs : ∀ v ∈ vs, v.name.isString = true)
    {shared : Value} {names : List Value} {source after : SerialSource} {images : Renaming}
    (h : freshen shared vs names source = (images, after)) :
    ∃ drawn, source.Draws drawn after ∧
      (∀ e ∈ images, e.2.serial = shared ∨ e.2.serial ∈ drawn) ∧
      (∀ a ∈ drawn, ∃ e ∈ images, e.2.serial = a) ∧
      drawn.length + ((vs.map Variable.name).toFinset \ names.toFinset).card = vs.length := by
  -- the names that are met grow along the list
  induction vs generalizing names source images with
  | nil =>
    obtain ⟨rfl, rfl⟩ := Prod.mk.inj h
    exact ⟨[], .none _, by simp, by simp, by simp⟩
  | cons v vs ih =>
    obtain ⟨hv, hvs⟩ := List.forall_mem_cons.1 hvs
    have hmem : names.any v.name.alike = true ↔ v.name ∈ names := Value.any_alike_iff hv
    cases hmet : names.any v.name.alike with
    | true =>
      rcases hrest : freshen shared vs names source.draw.2 with ⟨rest, left⟩
      simp only [freshen, hmet, if_true, hrest] at h
      obtain ⟨rfl, rfl⟩ := Prod.mk.inj h
      obtain ⟨drawn, hdraws, hserial, hused, hcount⟩ := ih hvs hrest
      refine ⟨source.draw.1 :: drawn, .next hdraws, ?_, ?_, ?_⟩
      · refine List.forall_mem_cons.2 ⟨.inr List.mem_cons_self, fun e he => ?_⟩
        exact (hserial e he).imp_right (List.mem_cons_of_mem _)
      · refine List.forall_mem_cons.2 ⟨⟨_, List.mem_cons_self, rfl⟩, fun a ha => ?_⟩
        obtain ⟨e, he, hea⟩ := hused a ha
        exact ⟨e, List.mem_cons_of_mem _ he, hea⟩
      · rw [List.map_cons, List.toFinset_cons,
          Finset.insert_sdiff_of_mem _ (List.mem_toFinset.2 (hmem.1 hmet)),
          List.length_cons, List.length_cons, ← hcount]
        omega
    | false =>
      rcases hrest : freshen shared vs (v.name :: names) source with ⟨rest, left⟩
      simp only [freshen, hmet, Bool.false_eq_true, if_false, hrest] at h
      obtain ⟨rfl, rfl⟩ := Prod.mk.inj h
      obtain ⟨drawn, hdraws, hserial, hused, hcount⟩ := ih hvs hrest
      have hnew : v.name ∉ names.toFinset := by
        rw [List.mem_toFinset, ← hmem, hmet]
        exact Bool.false_ne_true
      refine ⟨drawn, hdraws, List.forall_mem_cons.2 ⟨.inl rfl, hserial⟩, fun a ha => ?_, ?_⟩
      · obtain ⟨e, he, hea⟩ := hused a ha
        exact ⟨e, List.mem_cons_of_mem _ he, hea⟩
      · -- the name of `v` is counted once, here
        have hinsert : (((v :: vs).map Variable.name).toFinset \ names.toFinset) =
            insert v.name ((vs.map Variable.name).toFinset \ (v.name :: names).toFinset) := by
          ext a
          by_cases ha : a = v.name
          · simp [ha, List.mem_toFinset.not.1 hnew]
          · simp [ha]
        rw [hinsert, Finset.card_insert_of_notMem (by simp), List.length_cons, ← hcount]
        omega

/-- The largest of some serials is one of them, or zero if there are none. -/
theorem mem_of_largestSerial {serials : List Value} {a : Value}
    (h : largestSerial serials = .ok a) : a ∈ serials ∨ serials = [] ∧ a = .int 0 := by
  cases serials with
  | nil => exact .inr ⟨rfl, (Except.ok.inj h).symm⟩
  | cons first rest =>
    rw [largestSerial] at h
    refine .inl ?_
    induction rest generalizing first with
    | nil =>
      obtain rfl := Except.ok.inj h
      exact List.mem_singleton_self _
    | cons b rest ih =>
      rw [List.foldlM_cons, bind_eq_ok_iff] at h
      obtain ⟨c, hc, h⟩ := h
      -- the larger one of the two takes the place of the first
      have hor : c = first ∨ c = b := by
        split at hc
        · obtain rfl := Except.ok.inj hc
          split
          · exact .inr rfl
          · exact .inl rfl
        · cases hc
      have hmem := ih c h
      rcases hor with rfl | rfl
      · exact List.cons_subset_cons _ (List.subset_cons_self _ _) hmem
      · exact List.mem_cons_of_mem _ hmem

/-! ### Copies -/

namespace Rule

/-- The variables that occur in the rule. -/
def variableSet (r : Rule) : Set Variable := {v | v ∈ r.occurrences}

/-- The names of its variables. -/
def nameSet (r : Rule) : Set Value := Variable.name '' r.variableSet

/-- The largest serial in the rule, or zero if it has no variables. -/
def IsTopSerial (r : Rule) (top : Int) : Prop :=
  IsGreatest {k : Int | ∃ v ∈ r.occurrences, v.serial = .int k} top ∨ r.occurrences = [] ∧ top = 0

end Rule

/-- The images as bindings of the variables. -/
def Renaming.bindings (images : Renaming) : Bindings :=
  .ofPairs (images.map fun e => (e.1, .var e.2))

theorem Renaming.binds_bindings_iff {images : Renaming} {v : Variable} {t : Term} :
    images.bindings.Binds v t ↔ ∃ w, t = .var w ∧ (v, w) ∈ images := by
  rw [bindings, Bindings.binds_ofPairs_iff, List.mem_map]
  constructor
  · rintro ⟨e, he, heq⟩
    obtain ⟨rfl, rfl⟩ := Prod.mk.inj heq
    exact ⟨e.2, rfl, he⟩
  · rintro ⟨w, rfl, he⟩
    exact ⟨_, he, rfl⟩

/-- What is wanted of a copy of the rule `r` and of the source after it, if the source stood at
`n` before; the variables of the rule are given the images, and the serials are drawn. -/
structure IsStandardCopy (r : Rule) (n : Int) (images : Renaming) (serials : List Value)
    (copy : Rule) (after : SerialSource) : Prop where
  /-- Each variable of the rule has one image. -/
  domain : (images.map Prod.fst).Nodup ∧ ∀ v, v ∈ images.map Prod.fst ↔ v ∈ r.occurrences
  /-- The copy is the rule with the images in the places of the variables. -/
  renamed : copy = r.rename images.apply
  /-- The names stay. -/
  name : ∀ v ∈ r.occurrences, (images.apply v).name = v.name
  /-- Different variables have different images. -/
  injective : ∀ v ∈ r.occurrences, ∀ w ∈ r.occurrences, images.apply v = images.apply w → v = w
  /-- Reading the images backwards restores the rule. -/
  restored : copy.rename (Renaming.apply (images.map Prod.swap)) = r
  /-- The serials of the images are `n` at least and above all serials in the rule. -/
  fresh : ∀ v ∈ r.occurrences, (images.apply v).AtLeast n ∧
    ∀ w ∈ r.occurrences, w.Before (images.apply v)
  /-- The source skips past the serials in the rule, and then consecutive serials are drawn:
  one, and one more for each variable that is not the first of its name. -/
  drawn : ∃ top skipped, r.IsTopSerial top ∧
    (⟨.int n⟩ : SerialSource).skipPast (.int top) = .ok skipped ∧ skipped.Draws serials after ∧
    serials = SerialSource.consecutive (max n (top + 1))
      (1 + (r.variableSet.ncard - r.nameSet.ncard))
  /-- Images have serials that are drawn, and unless the rule is ground all of them are used. -/
  used : (∀ v ∈ r.occurrences, (images.apply v).serial ∈ serials) ∧
    (r.occurrences ≠ [] → ∀ a ∈ serials, ∃ v ∈ r.occurrences, (images.apply v).serial = a)
  /-- The next serial is above all that were drawn. -/
  upcoming : ∃ m : Int, after = ⟨.int m⟩ ∧ ∀ a ∈ serials, ∃ k : Int, a = .int k ∧ k < m
  /-- Following the images as bindings gives the copy too. -/
  substituted : images.bindings.substitute (.literal r.head) = .ok (.literal copy.head) ∧
    r.body.mapM (fun l => images.bindings.substitute (.literal l)) =
      .ok (copy.body.map .literal)

namespace Rule.Copying

variable {r : Rule} {n top m : Int} {vs : List Variable} {images : Renaming}

theorem isRegular (h : Copying r n top m vs images) (hr : r.meets .loose = true) :
    ∀ v ∈ vs, v.isRegular = true :=
  fun v hv => Rule.var_of_mem_occurrences (p := .loose) hr ((h.mem v).1 hv)

theorem apply_mem (h : Copying r n top m vs images) (hr : r.meets .loose = true) {v : Variable}
    (hv : v ∈ r.occurrences) : (v, images.apply v) ∈ images := by
  rw [← h.mem, ← h.listed.domain] at hv
  exact Renaming.apply_mem hv (h.listed.domain ▸ h.isRegular hr)

theorem apply_eq (h : Copying r n top m vs images) (hr : r.meets .loose = true)
    {e : Variable × Variable} (he : e ∈ images) : e.1 ∈ r.occurrences ∧ images.apply e.1 = e.2 := by
  have hmem : e.1 ∈ vs := h.listed.domain ▸ List.mem_map_of_mem he
  have hocc := (h.mem e.1).1 hmem
  have hnodup : (images.map Prod.fst).Nodup := h.listed.domain ▸ h.nodup
  have heq := List.inj_on_of_nodup_map hnodup (h.apply_mem hr hocc) he rfl
  exact ⟨hocc, (Prod.ext_iff.1 heq).2⟩

theorem freshens (h : Copying r n top m vs images) (hr : r.meets .loose = true) :
    Freshens images.apply r n m :=
  h.listed.freshens h.lt (le_max_left _ _) h.mem (h.isRegular hr) h.below

/-- Images are regular, since they have the names of regular variables. -/
theorem image_isRegular (h : Copying r n top m vs images) (hr : r.meets .loose = true)
    {e : Variable × Variable} (he : e ∈ images) : e.2.isRegular = true := by
  obtain ⟨k, hk, -⟩ := h.listed.serial e he
  obtain ⟨s, j, hv⟩ := Variable.isRegular_iff.1
    (h.isRegular hr e.1 (h.listed.domain ▸ List.mem_map_of_mem he))
  refine Variable.isRegular_iff.2 ⟨s, k, ?_⟩
  have hname : e.2.name = .str s := by rw [h.listed.name e he, hv]
  rw [← hname, ← hk]

/-- **The images read backwards** restore the rule. -/
theorem restores (h : Copying r n top m vs images) (hr : r.meets .loose = true) :
    (r.rename images.apply).rename (Renaming.apply (images.map Prod.swap)) = r := by
  have hback : ∀ v ∈ r.occurrences,
      Renaming.apply (images.map Prod.swap) (images.apply v) = v := by
    intro v hv
    have hmem := h.apply_mem hr hv
    have hkey : images.apply v ∈ (images.map Prod.swap).map (·.1) := by
      rw [List.map_map]
      exact List.mem_map.2 ⟨_, hmem, rfl⟩
    have hreg : ∀ w ∈ (images.map Prod.swap).map (·.1), w.isRegular = true := by
      rw [List.map_map]
      exact List.forall_mem_map.2 fun e he => h.image_isRegular hr he
    obtain ⟨e, he, heq⟩ := List.mem_map.1 (Renaming.apply_mem hkey hreg)
    -- no image is given twice
    obtain rfl := List.inj_on_of_nodup_map h.listed.nodup he hmem (Prod.ext_iff.1 heq).1
    exact (Prod.ext_iff.1 heq).2.symm
  rw [Rule.rename_rename, Rule.rename_congr hback, Rule.rename_id]

/-- The serial that is skipped past is the largest one of the rule. -/
theorem isTopSerial (h : Copying r n top m vs images) : r.IsTopSerial top := by
  rcases mem_of_largestSerial h.largest with hmem | ⟨hnone, htop⟩
  · obtain ⟨v, hv, htop⟩ := List.mem_map.1 hmem
    refine .inl ⟨⟨v, (h.mem v).1 hv, htop⟩, ?_⟩
    rintro k ⟨w, hw, hk⟩
    have hints : ∀ a ∈ vs.map (·.serial), ∃ k : Int, a = .int k := by
      intro a ha
      obtain ⟨x, hx, rfl⟩ := List.mem_map.1 ha
      exact (h.below x hx).imp fun _ => And.left
    obtain ⟨top', htop', hle, -⟩ := largestSerial_eq hints
    obtain rfl : top = top' := by simpa using h.largest.symm.trans htop'
    exact hle k (List.mem_map.2 ⟨w, (h.mem w).2 hw, hk⟩)
  · refine .inr ⟨List.eq_nil_iff_forall_not_mem.2 fun v hv => ?_, Value.int.inj htop⟩
    rw [List.map_eq_nil_iff.1 hnone] at h
    exact List.not_mem_nil ((h.mem v).2 hv)

open Classical in
theorem ncard_variableSet (h : Copying r n top m vs images) : r.variableSet.ncard = vs.length := by
  have hset : r.variableSet = vs.toFinset := by
    ext v
    simp [Rule.variableSet, h.mem]
  rw [hset, Set.ncard_coe_finset, List.toFinset_card_of_nodup h.nodup]

open Classical in
theorem ncard_nameSet (h : Copying r n top m vs images) :
    r.nameSet.ncard = (vs.map Variable.name).toFinset.card := by
  have hset : r.nameSet = (vs.map Variable.name).toFinset := by
    ext a
    simp [Rule.nameSet, Rule.variableSet, h.mem]
  rw [hset, Set.ncard_coe_finset]

/-- **The draws**: one for all names, and one for each variable that is not the first of its
name. -/
theorem exists_serials (h : Copying r n top m vs images) (hr : r.meets .loose = true) :
    ∃ serials, SerialSource.Draws ⟨.int (max n (top + 1))⟩ serials ⟨.int m⟩ ∧
      serials.length = 1 + (r.variableSet.ncard - r.nameSet.ncard) ∧
      (∀ e ∈ images, e.2.serial ∈ serials) ∧
      (r.occurrences ≠ [] → ∀ a ∈ serials, ∃ e ∈ images, e.2.serial = a) := by
  classical
  have hnames : ∀ v ∈ vs, v.name.isString = true := by
    intro v hv
    obtain ⟨s, k, rfl⟩ := Variable.isRegular_iff.1 (h.isRegular hr v hv)
    rfl
  obtain ⟨drawn, hdraws, hserial, hused, hcount⟩ := freshen_draws hnames h.freshened
  refine ⟨.int (max n (top + 1)) :: drawn, .next hdraws, ?_, fun e he => ?_, fun hne => ?_⟩
  · have hvars := h.ncard_variableSet
    have hset := h.ncard_nameSet
    rw [List.toFinset_nil, Finset.sdiff_empty, ← hset, ← hvars] at hcount
    rw [List.length_cons]
    omega
  · exact List.mem_cons.2 (hserial e he)
  · refine List.forall_mem_cons.2 ⟨?_, hused⟩
    -- the first variable is the first of its name
    obtain ⟨w, hw⟩ := List.exists_mem_of_ne_nil _ hne
    obtain ⟨v, vs, rfl⟩ := List.exists_cons_of_ne_nil (List.ne_nil_of_mem ((h.mem w).2 hw))
    have hfreshened := h.freshened
    simp only [freshen, List.any_nil, Bool.false_eq_true, if_false] at hfreshened
    obtain ⟨rfl, -⟩ := Prod.mk.inj hfreshened
    exact ⟨_, List.mem_cons_self, rfl⟩

/-- The images as bindings are an acyclic environment, in which each image is unbound. -/
theorem bindings_meets_acyclic (h : Copying r n top m vs images) (hr : r.meets .loose = true) :
    images.bindings.Meets .loose ∧ images.bindings.Acyclic := by
  classical
  refine Bindings.meets_acyclic_ofPairs (fun v => if v ∈ r.occurrences then 1 else 0) _ ?_ ?_
  · refine List.forall_mem_map.2 fun e he => ?_
    obtain ⟨hocc, heq⟩ := h.apply_eq hr he
    refine ⟨h.isRegular hr _ ((h.mem _).2 hocc), h.image_isRegular hr he, fun w hw => ?_⟩
    obtain rfl := List.mem_singleton.1 hw
    have hnot : e.2 ∉ r.occurrences := by
      intro hmem
      rw [← heq] at hmem
      exact ((h.freshens hr).above _ hmem _ hocc).ne rfl
    simp [hocc, hnot]
  · have hkeys : (images.map fun e => (e.1, Term.var e.2)).map Prod.fst = vs := by
      rw [List.map_map]
      exact h.listed.domain
    rw [hkeys]
    exact h.nodup

/-- **No chain is followed**: the full value of a variable of the rule is its image. -/
theorem solution_eq (h : Copying r n top m vs images) (hr : r.meets .loose = true)
    {v : Variable} (hv : v ∈ r.occurrences) :
    images.bindings.solution v = .var (images.apply v) := by
  obtain ⟨hb, hac⟩ := h.bindings_meets_acyclic hr
  have hmem := h.apply_mem hr hv
  have hbinds := Renaming.binds_bindings_iff.2 ⟨_, rfl, hmem⟩
  rw [hac.solution_of_binds hb hbinds, Term.instantiate_var]
  refine hac.solution_of_unbound hb (h.image_isRegular hr hmem) ?_
  rintro ⟨t, ht⟩
  obtain ⟨w, -, hw⟩ := Renaming.binds_bindings_iff.1 ht
  exact ((h.freshens hr).above _ (h.apply_eq hr hw).1 _ hv).ne rfl

theorem substitute_eq (h : Copying r n top m vs images) (hr : r.meets .loose = true)
    {l : Literal} (hl : l.meets .loose = true) (hsub : ∀ v ∈ l.occurrences, v ∈ r.occurrences) :
    images.bindings.substitute (.literal l) = .ok (.literal (l.rename images.apply)) := by
  obtain ⟨hb, hac⟩ := h.bindings_meets_acyclic hr
  rw [hac.substitute_literal hb hl, Literal.rename_eq_instantiate,
    Literal.instantiate_congr fun v hv => h.solution_eq hr (hsub v hv)]

/-- So the images as bindings turn the rule into its copy, literal by literal. -/
theorem substitutes (h : Copying r n top m vs images) (hr : r.meets .loose = true) :
    images.bindings.substitute (.literal r.head) = .ok (.literal (r.head.rename images.apply)) ∧
      r.body.mapM (fun l => images.bindings.substitute (.literal l)) =
        .ok ((r.rename images.apply).body.map .literal) := by
  obtain ⟨hhead, hbody⟩ := Rule.meets_iff.1 hr
  refine ⟨h.substitute_eq hr hhead fun v hv => Rule.mem_occurrences.2 (.inl hv), ?_⟩
  have hlits : ∀ l ∈ r.body, images.bindings.substitute (.literal l) =
      .ok (.literal (l.rename images.apply)) := fun l hl =>
    h.substitute_eq hr (hbody l hl) fun v hv => Rule.mem_occurrences.2 (.inr ⟨l, hl, hv⟩)
  rw [mapM_eq_ok hlits, Rule.rename, List.map_map]
  rfl

end Rule.Copying

/-- **Standardizing apart renames a rule** one to one, above all that was seen, and draws as few
serials as keep the variables of each name apart. -/
theorem standardizeApart_renames {r : Rule} (hr : r.meets .loose = true) (n : Int) :
    ∃ images serials copy after, r.standardizeApart ⟨.int n⟩ = .ok (copy, after) ∧
      IsStandardCopy r n images serials copy after := by
  have hreg : ∀ v ∈ r.occurrences, v.isRegular = true :=
    fun v hv => Rule.var_of_mem_occurrences (p := .loose) hr hv
  obtain ⟨top, m, vs, images, h⟩ := Rule.exists_copying hreg n
  obtain ⟨serials, hdraws, hlength, hmem, hall⟩ := h.exists_serials hr
  have hfreshens := h.freshens hr
  obtain ⟨hserials, hafter⟩ := hdraws.eq_consecutive
  have hm : m = max n (top + 1) + serials.length := Value.int.inj (SerialSource.mk.inj hafter)
  refine ⟨images, serials, _, _, h.result, ?_⟩
  constructor
  case domain =>
    rw [h.listed.domain]
    exact ⟨h.nodup, h.mem⟩
  case renamed => rfl
  case name => exact hfreshens.name
  case injective => exact hfreshens.injective
  case restored => exact h.restores hr
  case fresh => exact fun v hv => ⟨hfreshens.atLeast v hv, fun w hw => hfreshens.above w hw v hv⟩
  case drawn =>
    refine ⟨top, _, h.isTopSerial, SerialSource.skipPast_int n top, hdraws, ?_⟩
    rw [← hlength, ← hserials]
  case used =>
    refine ⟨fun v hv => hmem _ (h.apply_mem hr hv), fun hne a ha => ?_⟩
    obtain ⟨e, he, hea⟩ := hall hne a ha
    obtain ⟨hocc, heq⟩ := h.apply_eq hr he
    exact ⟨e.1, hocc, heq ▸ hea⟩
  case upcoming =>
    refine ⟨m, rfl, fun a ha => ?_⟩
    rw [hserials] at ha
    rw [hm]
    exact SerialSource.lt_of_mem_consecutive ha
  case substituted => exact h.substitutes hr

/-- The second variable named `X` takes a serial of its own, and the serials up to 5 are
skipped. -/
theorem standardCopy_sharedName :
    let r : Rule :=
      ⟨⟨.str "p", [.var ⟨.str "X", .int 0⟩, .app (.str "f") [.var ⟨.str "X", .int 2⟩]]⟩,
        [⟨.str "q", [.var ⟨.str "Y", .int 5⟩, .var ⟨.str "X", .int 0⟩]⟩]⟩
    let copy : Rule :=
      ⟨⟨.str "p", [.var ⟨.str "X", .int 6⟩, .app (.str "f") [.var ⟨.str "X", .int 7⟩]]⟩,
        [⟨.str "q", [.var ⟨.str "Y", .int 6⟩, .var ⟨.str "X", .int 6⟩]⟩]⟩
    r.meets .loose = true ∧ r.standardizeApart ⟨.int 3⟩ = .ok (copy, ⟨.int 8⟩) ∧
      ∃ images serials, IsStandardCopy r 3 images serials copy ⟨.int 8⟩ := by
  intro r copy
  obtain ⟨images, serials, made, after, hmade, hcopy⟩ := standardizeApart_renames (r := r) rfl 3
  have hcomputed : r.standardizeApart ⟨.int 3⟩ = .ok (copy, ⟨.int 8⟩) := by cbv
  obtain ⟨rfl, rfl⟩ := Prod.mk.inj (Except.ok.inj (hcomputed.symm.trans hmade))
  exact ⟨rfl, hcomputed, images, serials, hcopy⟩

end HornSearch
