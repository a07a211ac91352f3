/-
HornSearch/Proofs/ShownAnswers.lean

Exported answers.  The bindings of a proof are exported under display names, and of several
variables with one display name the last one gives the value (`lookup_showAll`).  A variable
that a user writes is displayed by its name; a variable of a copy of a rule by its name, an
underscore and its serial.  So the names of a query are exported with their full values
unless one of them looks like a renamed variable of a rule (`prove_exports`).

An export fails if a number in it is too long to be written, and only then
(`exists_exported`).  What it holds if it succeeds does not depend on that, so it is asked of a
computation that it has no other result (`OnlyGives`).

Such a name exists: `?X_1` as a user writes it and the first copy of `?X` have one display
name, and the value of the copy is exported for both (`overwritten_export`).
-/
import HornSearch.Proofs.AbandonedBranches
import HornSearch.Proofs.GeneralAnswers
import Mathlib.Data.List.TakeWhile

namespace HornSearch

variable {kb : KnowledgeBase} {limit : Option Nat} {depth : Nat} {goals : List Literal}
variable {nodes : List ProofNode} {b c θ : Bindings} {n m : Int} {v : Variable}

/-! ### The variables of a proof -/

/-- The variables of the copies in a proof have the names of those in the rules. -/
theorem Proved.exists_original (h : Proved kb limit depth goals b n c nodes m) :
    ∀ copy ∈ ProofNode.rulesOf nodes, ∀ v ∈ copy.occurrences,
      ∃ rule ∈ kb.rules, ∃ w ∈ rule.occurrences, v.name = w.name := by
  induction h with
  | nil _ => simp
  | fact _ _ _ _ ih => simpa using ih
  | @rule depth goal goals rule copy b c d e children nodes n i j k m _ hrule _ hcopy _ _ _
      ihbody ih =>
    rw [ProofNode.rulesOf_byRule, List.forall_mem_cons, List.forall_mem_append]
    refine ⟨fun v hv => ?_, ihbody, ih⟩
    obtain ⟨ρ, rfl, -, hρ⟩ := hcopy.exists_freshens
    obtain ⟨w, hw, rfl⟩ := Rule.mem_occurrences_rename.1 hv
    exact ⟨rule, hrule, w, hw, hρ.name w hw⟩

/-! ### Display names -/

/-- The name that a variable is displayed by. -/
def Variable.displayName (v : Variable) : String :=
  String.ofList (v.text.toList.dropWhile (· == '?'))

theorem Bindings.onlyGives_displayName (v : Variable) :
    OnlyGives (displayName (.ofVariable v)) v.displayName :=
  (onlyGives_textOrFault Value.onlyGives_shownAs).map _

theorem Bindings.displayName_ofVariable (hv : v.toValue.hasText = true) :
    displayName (.ofVariable v) = .ok v.displayName := by
  have htext : (Item.ofVariable v).text? = .ok v.text := Value.text?_eq hv
  rw [displayName, htext]
  rfl

/-- A variable of a user is displayed by its name. -/
theorem Variable.displayName_named {name : String} (h : name.toList.head? ≠ some '?') :
    (named name).displayName = name := by
  have hdrop : name.toList.dropWhile (· == '?') = name.toList := by
    cases hname : name.toList with
    | nil => rfl
    | cons first rest =>
      have hfirst : first ≠ '?' := by simpa [hname] using h
      simp [hfirst]
  rw [displayName, named, text_of_isRegular, if_pos rfl, String.toList_append]
  simp [hdrop]

/-- A variable with a serial is displayed with an underscore. -/
theorem Variable.underscore_mem_displayName {name : String} {k : Int} (hk : k ≠ 0) :
    '_' ∈ (Variable.mk (.str name) (.int k)).displayName.toList := by
  have hmem : ∀ {l : List Char}, '_' ∈ l → '_' ∈ l.dropWhile (· == '?') := by
    intro l hl
    rw [← List.takeWhile_append_dropWhile (p := (· == '?')) (l := l), List.mem_append] at hl
    refine hl.resolve_left fun htake => ?_
    have hmark : ('_' == '?') = true := List.mem_takeWhile_imp (p := (· == '?')) htake
    exact absurd hmark (by decide)
  rw [displayName, text_of_isRegular, if_neg hk, String.toList_ofList]
  exact hmem (by simp)

/-! ### Looking up what is displayed -/

namespace Bindings

variable {shown entries : List (String × Item)} {name other : String} {i : Item}

/-- What was set last under a name is found. -/
theorem lookup_setShown :
    (setShown shown name i).lookup other =
      if other = name then some i else shown.lookup other := by
  rw [setShown]
  split
  · rename_i hshown
    have hmap : (shown.map fun e => if e.1 == name then (name, i) else e) =
        shown.map fun e => (e.1, if e.1 = name then i else e.2) := by
      refine List.map_congr_left ?_
      rintro ⟨key, j⟩ -
      by_cases h : key = name <;> simp [h]
    rw [hmap, lookup_map fun key j => if key = name then i else j]
    by_cases h : other = name
    · obtain ⟨e, he, hname⟩ := List.any_eq_true.1 hshown
      have hfound : (shown.lookup name).isSome = true :=
        List.lookup_isSome_iff.2 ⟨e, he, beq_iff_eq.2 (beq_iff_eq.1 hname).symm⟩
      obtain ⟨j, hj⟩ := Option.isSome_iff_exists.1 hfound
      simp [h, hj]
    · simp [h]
  · rename_i hshown
    rw [List.lookup_append, lookup_cons_eq]
    by_cases h : other = name
    · have hnone : shown.lookup name = none := by
        refine List.lookup_eq_none_iff.2 fun e he => bne_iff_ne.2 fun hname => hshown ?_
        exact List.any_eq_true.2 ⟨e, he, beq_iff_eq.2 hname.symm⟩
      simp [h, hnone]
    · simp [h]

/-- Setting what is shown under names, from left to right. -/
def showAll (entries : List (String × Item)) : List (String × Item) :=
  entries.foldl (fun shown e => setShown shown e.1 e.2) []

theorem showAll_concat (e : String × Item) :
    showAll (entries ++ [e]) = setShown (showAll entries) e.1 e.2 := by
  rw [showAll, List.foldl_append]
  rfl

/-- Of several entries with one name the last gives the value. -/
theorem lookup_showAll : (showAll entries).lookup name = entries.reverse.lookup name := by
  induction entries using List.reverseRecOn with
  | nil => rfl
  | append_singleton entries e ih =>
    rw [showAll_concat, lookup_setShown, ih, List.reverse_append]
    exact lookup_cons_eq.symm

theorem mem_of_mem_showAll {e : String × Item} (h : e ∈ showAll entries) : e ∈ entries := by
  induction entries using List.reverseRecOn generalizing e with
  | nil => cases h
  | append_singleton entries last ih =>
    rw [showAll_concat, setShown] at h
    rw [List.mem_append, List.mem_singleton]
    split at h
    · obtain ⟨old, hold, rfl⟩ := List.mem_map.1 h
      split
      · exact .inr rfl
      · exact .inl (ih hold)
    · exact (List.mem_append.1 h).imp ih List.mem_singleton.1

/-- An environment that binds variables to terms is a list of such bindings. -/
theorem Meets.exists_pairs {p : Criterion} (h : θ.Meets p) : ∃ pairs : List (Variable × Term),
    θ.entries = pairs.map (fun e => (.ofVariable e.1, .term e.2)) ∧
      ∀ e ∈ pairs, e.1.isRegular = true ∧ θ.Binds e.1 e.2 := by
  obtain ⟨pairs, hpairs⟩ := exists_ofPairs fun e he => by
    obtain ⟨v, t, rfl, -, -⟩ := h.typed e he
    exact ⟨v, t, rfl⟩
  refine ⟨pairs, hpairs, fun e he => ?_⟩
  have hbinds : θ.Binds e.1 e.2 := by
    rw [Binds, hpairs]
    exact binds_ofPairs_iff.2 he
  exact ⟨h.isRegular hbinds, hbinds⟩

/-- The display names of bound variables, each with the full value. -/
noncomputable def shownValues (b : Bindings) (pairs : List (Variable × Term)) :
    List (String × Item) :=
  pairs.map fun e => (e.1.displayName, .term (b.solution e.1))

variable {pairs : List (Variable × Term)}

theorem Acyclic.substitute_ofVariable (hac : θ.Acyclic) (h : θ.Meets .regular)
    (hv : v.isRegular = true) : θ.substitute (.ofVariable v) = .ok (.term (θ.solution v)) :=
  hac.substitute_term h (t := .var v) hv

/-- **The values are shown by display name**, set one after another, and nothing else is. -/
theorem Acyclic.onlyGives_display (hac : θ.Acyclic) (h : θ.Meets .regular)
    (hpairs : θ.entries = pairs.map (fun e => (.ofVariable e.1, .term e.2)))
    (hreg : ∀ e ∈ pairs, e.1.isRegular = true) :
    OnlyGives (θ.display true) (showAll (θ.shownValues pairs)) := by
  rw [display, hpairs, List.foldlM_map, showAll, shownValues, List.foldl_map]
  refine OnlyGives.foldlM (fun shown e he => ?_) []
  refine (onlyGives_displayName e.1).bind ?_
  rw [if_pos rfl, hac.substitute_ofVariable h (hreg e he)]
  exact onlyGives_ok _

/-- They are shown if all bound variables have texts. -/
theorem Acyclic.display_eq (hac : θ.Acyclic) (h : θ.Meets .regular)
    (hpairs : θ.entries = pairs.map (fun e => (.ofVariable e.1, .term e.2)))
    (hreg : ∀ e ∈ pairs, e.1.isRegular = true)
    (htext : ∀ e ∈ pairs, e.1.toValue.hasText = true) :
    θ.display true = .ok (showAll (θ.shownValues pairs)) := by
  rw [display, hpairs, List.foldlM_map, showAll, shownValues, List.foldl_map]
  refine foldlM_eq_ok (fun shown e he => ?_) []
  rw [displayName_ofVariable (htext e he), ok_bind, if_pos rfl,
    hac.substitute_ofVariable h (hreg e he)]
  rfl

/-- A variable that shares its display name with no other bound variable is shown with its
full value. -/
theorem lookup_shownValues (hv : v ∈ pairs.map (·.1))
    (halone : ∀ e ∈ pairs, e.1.displayName = v.displayName → e.1 = v) :
    (showAll (θ.shownValues pairs)).lookup v.displayName = some (.term (θ.solution v)) := by
  rw [lookup_showAll]
  obtain ⟨e, he, rfl⟩ := List.mem_map.1 hv
  refine lookup_of_mem (List.mem_reverse.2 (List.mem_map.2 ⟨e, he, rfl⟩)) fun i hi => ?_
  obtain ⟨e', he', heq⟩ := List.mem_map.1 (List.mem_reverse.1 hi)
  obtain ⟨hname, rfl⟩ := Prod.ext_iff.1 heq
  rw [halone e' he' hname]

end Bindings

/-! ### Export -/

/-- Only raw strings have quotes that are left out. -/
theorem Item.shown_eq (i : Item) : i.shown = textOrFault i.toValue.bareText? := by
  cases i with
  | term t => cases t <;> rfl
  | _ => rfl

theorem Item.onlyGives_shown (i : Item) : OnlyGives i.shown i.toValue.text := by
  rw [shown_eq]
  exact onlyGives_textOrFault Value.onlyGives_shownAs

theorem Item.shown_of_hasText {i : Item} (h : i.toValue.hasText = true) :
    i.shown = .ok i.toValue.text := by
  rw [shown_eq, Value.bareText?, Value.shownAs_eq h]
  rfl

/-- The full values of bound variables as texts, by display name. -/
noncomputable def shownTexts (θ : Bindings) (pairs : List (Variable × Term)) :
    List (String × String) :=
  (Bindings.showAll (θ.shownValues pairs)).map fun e => (e.1, e.2.toValue.text)

theorem lookup_shownTexts {pairs : List (Variable × Term)} {name : String} {t : Term}
    (h : (Bindings.showAll (θ.shownValues pairs)).lookup name = some (.term t)) :
    (shownTexts θ pairs).lookup name = some t.text := by
  rw [shownTexts, lookup_map fun (_ : String) (i : Item) => i.toValue.text, h]
  rfl

section Export

variable {pairs : List (Variable × Term)}

/-- The bindings in an export are the texts of the full values. -/
theorem bindings_of_shown {exported : ShownTree} (hac : θ.Acyclic) (hθ : θ.Meets .regular)
    (hpairs : θ.entries = pairs.map (fun e => (.ofVariable e.1, .term e.2)))
    (hreg : ∀ e ∈ pairs, e.1.isRegular = true)
    (h : (ProofTree.mk (goals.map .literal) (some (θ, nodes))).shown = .ok exported) :
    exported.bindings = some (shownTexts θ pairs) := by
  have hshown : OnlyGives θ.shown (shownTexts θ pairs) := by
    refine (hac.onlyGives_display hθ hpairs hreg).bind (OnlyGives.mapM fun e _ => ?_)
    exact e.2.onlyGives_shown.bind (onlyGives_ok _)
  obtain ⟨query, -, h⟩ := bind_eq_ok_iff.1 h
  obtain ⟨bindings, hbindings, h⟩ := bind_eq_ok_iff.1 h
  obtain ⟨shownNodes, -, h⟩ := bind_eq_ok_iff.1 h
  obtain rfl := Except.ok.inj h
  exact hshown.map some bindings hbindings

mutual

/-- Nodes that are made of shown syntax have texts. -/
theorem ProofNode.exists_shown (node : ProofNode)
    (h : ∀ other ∈ node.all, other.meets .shown) : ∃ shown, node.shown = .ok shown := by
  have htext : ∀ {a : Value}, a.hasText = true → textOrFault a.text? = .ok a.quotedText := by
    intro a ha
    rw [Value.text?_eq ha]
    rfl
  cases node with
  | byFact goal fact depth =>
    obtain ⟨hgoal, hfact⟩ := h (.byFact goal fact depth) (by simp [ProofNode.all])
    refine ⟨.mk goal.toValue.quotedText depth (some fact.toValue.quotedText) none [], ?_⟩
    rw [ProofNode.shown, Literal.text?, htext (Literal.hasText_toValue hgoal), Literal.text?,
      htext (Literal.hasText_toValue hfact)]
    rfl
  | byRule goal rule children depth =>
    rw [ProofNode.all, List.forall_mem_cons] at h
    obtain ⟨⟨hgoal, hrule⟩, hchildren⟩ := h
    obtain ⟨shown, hshown⟩ := exists_shownNodes children hchildren
    refine ⟨.mk goal.toValue.quotedText depth none (some rule.toValue.quotedText) shown, ?_⟩
    rw [ProofNode.shown, Literal.text?, htext (Literal.hasText_toValue hgoal), Rule.text?,
      htext (Rule.hasText_toValue hrule), hshown]
    rfl

/-- So do lists of them. -/
theorem exists_shownNodes (nodes : List ProofNode)
    (h : ∀ node ∈ ProofNode.allOf nodes, node.meets .shown) :
    ∃ shown, shownNodes nodes = .ok shown := by
  cases nodes with
  | nil => exact ⟨[], rfl⟩
  | cons node nodes =>
    rw [ProofNode.allOf, List.forall_mem_append] at h
    obtain ⟨shown, hshown⟩ := ProofNode.exists_shown node h.1
    obtain ⟨rest, hrest⟩ := exists_shownNodes nodes h.2
    refine ⟨shown :: rest, ?_⟩
    rw [shownNodes, hshown, hrest]
    rfl

end

/-- **A proof is exported** if all that it is made of is shown. -/
theorem exists_exported (hac : θ.Acyclic) (hθ : θ.Meets .shown)
    (hkeys : ∀ v, θ.IsBound v → Criterion.shown.var v = true)
    (hg : ∀ g ∈ goals, g.meets .shown = true)
    (hnodes : ∀ node ∈ ProofNode.allOf nodes, node.meets .shown) :
    ∃ shown exported, θ.display true = .ok shown ∧
      (ProofTree.mk (goals.map .literal) (some (θ, nodes))).shown = .ok exported := by
  have hregular := hθ.mono Criterion.shown_implies_regular
  obtain ⟨pairs, hpairs, hbinds⟩ := hθ.exists_pairs
  have hvar : ∀ e ∈ pairs, Criterion.shown.var e.1 = true :=
    fun e he => hkeys e.1 ⟨e.2, (hbinds e he).2⟩
  have hdisplay : θ.display true = .ok (Bindings.showAll (θ.shownValues pairs)) :=
    hac.display_eq hregular hpairs (fun e he => (hbinds e he).1) fun e he =>
      Term.hasText_toValue (t := .var e.1) (hvar e he)
  have hbindings : θ.shown = .ok (shownTexts θ pairs) := by
    rw [Bindings.shown, hdisplay, ok_bind]
    refine mapM_eq_ok fun e he => ?_
    obtain ⟨e', he', rfl⟩ := List.mem_map.1 (Bindings.mem_of_mem_showAll he)
    have hvalue : (θ.solution e'.1).meets .shown = true :=
      hac.meets_solution hregular (fun _ _ => hθ.meets) (hbinds e' he').1 (hvar e' he')
    have hshown := Item.shown_of_hasText (i := .term (θ.solution e'.1))
      (Term.hasText_toValue hvalue)
    rw [hshown]
    rfl
  have hquery : (goals.map Item.literal).mapM Item.shown =
      .ok ((goals.map Item.literal).map fun i => i.toValue.text) := by
    refine mapM_eq_ok fun i hi => ?_
    obtain ⟨l, hl, rfl⟩ := List.mem_map.1 hi
    exact Item.shown_of_hasText (Literal.hasText_toValue (hg l hl))
  obtain ⟨shown, hshown⟩ := exists_shownNodes nodes hnodes
  let query := (goals.map Item.literal).map fun i => i.toValue.text
  refine ⟨_, ⟨query, true, some (shownTexts θ pairs), shown⟩, hdisplay, ?_⟩
  show ((goals.map Item.literal).mapM Item.shown >>= fun query => _) = _
  rw [hquery, ok_bind]
  show (θ.shown.map some >>= fun bindings => shownNodes nodes >>= fun ns => _) = _
  rw [hbindings, hshown]
  rfl

/-- What a proof is made of is shown if everything is that it starts from, and if the serials
that are drawn are. -/
theorem Proved.meets_shown (h : Proved kb limit depth goals .empty n c nodes m)
    (hkb : kb.Meets .shown) (hg : ∀ g ∈ goals, g.meets .shown = true) (hn : 0 ≤ n)
    (hm : m ≤ 10 ^ Numeral.mostDigits) :
    c.Meets .shown ∧ (∀ v, c.IsBound v → Criterion.shown.var v = true) ∧
      ∀ node ∈ ProofNode.allOf nodes, node.meets .shown := by
  have hfresh : ∀ copy ∈ ProofNode.rulesOf nodes, ∀ v ∈ copy.occurrences,
      v.isRegular = true → Criterion.shown.var v = true := by
    intro copy hcopy v hv hregular
    obtain ⟨⟨k, hk, hle⟩, ⟨k', hk', hlt⟩⟩ := h.rising.1 copy hcopy v hv
    obtain rfl := Value.int.inj (hk.symm.trans hk')
    refine Bool.and_eq_true_iff.2 ⟨hregular, ?_⟩
    rw [hk]
    exact Value.hasText_of_lt (hn.trans hle) hlt hm
  obtain ⟨hc, hnodes⟩ :=
    h.meetsAll Criterion.shown_implies_regular hkb hfresh hg Bindings.meets_empty
  refine ⟨hc, ?_, hnodes⟩
  -- a key is a variable of a goal or of a copy
  rintro v ⟨t, ht⟩
  have honly := h.holdsOf (hkb.mono Criterion.shown_implies_regular)
    (P := fun v => v.isRegular = true → Criterion.shown.var v = true) ?_ hfresh
    (by simp [Bindings.Binds, Bindings.empty])
  · exact (honly v t ht).1 (hc.isRegular ht)
  · intro g hgoal w hw _
    exact Literal.var_of_mem_occurrences (hg g hgoal) hw

end Export

/-- The variables in the goals are those of a user: their serial is zero, and their names do
not start with a question mark. -/
def UserWritten (goals : List Literal) : Prop :=
  ∀ g ∈ goals, ∀ v ∈ g.occurrences, ∃ s : String, v = .named s ∧ s.toList.head? ≠ some '?'

/-- No renamed variable of a rule is displayed by the name. -/
def KnowledgeBase.Spares (kb : KnowledgeBase) (name : String) : Prop :=
  ∀ rule ∈ kb.rules, ∀ w ∈ rule.occurrences, ∀ k : Int, 0 < k →
    (Variable.mk w.name (.int k)).displayName ≠ name

/-- Renamed variables have an underscore in their display names. -/
theorem KnowledgeBase.Meets.spares {p : Criterion} (hkb : kb.Meets p) (hp : p.Implies .regular)
    {name : String} (h : '_' ∉ name.toList) : kb.Spares name := by
  rintro rule hrule w hw k hk rfl
  have hreg : rule.meets .regular = true := Rule.meets_mono hp (hkb.rules rule hrule)
  have hw' : w.isRegular = true := Rule.var_of_mem_occurrences (p := .regular) hreg hw
  obtain ⟨s, j, rfl⟩ := Variable.isRegular_iff.1 hw'
  exact h (Variable.underscore_mem_displayName (by omega))

theorem UserWritten.displayName_eq {name : String} (huser : UserWritten goals)
    (hname : ∃ g ∈ goals, .named name ∈ g.occurrences) :
    (Variable.named name).displayName = name := by
  obtain ⟨g, hgoal, hmem⟩ := hname
  obtain ⟨s, hs, hmark⟩ := huser g hgoal _ hmem
  obtain rfl : name = s := Value.str.inj (Variable.mk.inj hs).1
  exact Variable.displayName_named hmark

/-- In a proof from no bindings only the variable of the user is displayed by its name. -/
theorem Proved.eq_of_displayName {name : String} (hkb : kb.Meets .regular)
    (h : Proved kb limit depth goals .empty n c nodes m) (hn : 0 < n) (huser : UserWritten goals)
    (hspared : kb.Spares name) (hv : c.IsBound v) (hname : v.displayName = name) :
    v = .named name := by
  obtain ⟨t, ht⟩ := hv
  have honly := h.holdsOf hkb (P := fun v => v.displayName = name → v = .named name) ?_ ?_
    (by simp [Bindings.Binds, Bindings.empty])
  · exact (honly v t ht).1 hname
  · intro g hgoal w hw hshown
    obtain ⟨s, rfl, hmark⟩ := huser g hgoal w hw
    rw [← hshown, Variable.displayName_named hmark]
  · rintro copy hcopy ⟨x, serial⟩ hw hshown
    obtain ⟨rule, hrule, w, hwr, rfl⟩ := h.exists_original copy hcopy _ hw
    obtain ⟨⟨k, rfl, hk⟩, -⟩ := h.rising.1 copy hcopy _ hw
    exact absurd hshown (hspared rule hrule w hwr k (by omega))

/-- A variable of a user is exported with its full value: that is what applying the bindings
to it gives, what is shown under its name, and what the export has the text of there. -/
structure ExportedAs (tree : ProofTree) (θ : Bindings) (name : String) (t : Term) : Prop where
  value : θ.substitute (.ofVariable (.named name)) = .ok (.term t)
  displayed : ∀ shown, θ.display true = .ok shown → shown.lookup name = some (.term t)
  exported : ∀ exported, tree.shown = .ok exported →
    ∃ entries, exported.bindings = some entries ∧ entries.lookup name = some t.text

/-- **A variable of the query is exported with its full value**, unless a renamed variable of
a rule is displayed by the same name.  There is an export unless a number is too long to be
written. -/
theorem prove_exports {settings : Settings} {levels : Nat} {query : Item} {trail trail' : Trail}
    {tree : ProofTree} {name : String} (hkb : kb.Meets .regular)
    (hq : Resolver.goalsOf query = .ok (goals.map .literal))
    (hg : ∀ g ∈ goals, g.meets .regular = true) (huser : UserWritten goals)
    (htrail : trail.source = ⟨.int n⟩)
    (hprove : Resolver.prove kb settings levels query .empty trail = (.proved tree, trail'))
    (hvalid : tree.bindings? = some θ) (hname : ∃ g ∈ goals, .named name ∈ g.occurrences)
    (hbound : θ.IsBound (.named name)) (hspared : kb.Spares name) :
    (∃ t, ExportedAs tree θ name t) ∧
      ∀ m, trail'.source = ⟨.int m⟩ → IsPrinted kb goals .empty n m →
        ∃ shown exported, θ.display true = .ok shown ∧ tree.shown = .ok exported := by
  obtain ⟨nodes, k, m, rfl, hstart, hproved, -, hm⟩ :=
    Resolver.proved_of_valid hkb hq hg Bindings.meets_empty htrail hprove hvalid
  have hac := hproved.acyclic Bindings.acyclic_empty
  have hc := hproved.meets Bindings.meets_empty
  obtain ⟨pairs, hpairs, hbinds⟩ := hc.exists_pairs
  have hreg : ∀ e ∈ pairs, e.1.isRegular = true := fun e he => (hbinds e he).1
  -- the serial of the variable is zero, so that those of the copies are positive
  have hpos : 0 < k := by
    obtain ⟨g, hgoal, hmem⟩ := hname
    obtain ⟨i, hi, hlt⟩ := (hstart.goals_within g hgoal).below _ hmem
    obtain rfl : i = 0 := (Value.int.inj hi).symm
    exact hlt
  have hfound : (Bindings.showAll (θ.shownValues pairs)).lookup name =
      some (.term (θ.solution (.named name))) := by
    obtain ⟨t, ht⟩ := hbound
    rw [Bindings.Binds, hpairs] at ht
    obtain ⟨⟨v, t'⟩, he, hev⟩ := List.mem_map.1 ht
    obtain rfl : v = .named name := Item.ofVariable_injective (Prod.ext_iff.1 hev).1
    have hdisplay := huser.displayName_eq hname
    have hlookup := Bindings.lookup_shownValues (θ := θ) (List.mem_map_of_mem he)
      fun e he h => hproved.eq_of_displayName hkb hpos huser hspared ⟨_, (hbinds e he).2⟩
        (h.trans hdisplay)
    rwa [hdisplay] at hlookup
  constructor
  · refine ⟨θ.solution (.named name), hac.substitute_ofVariable hc rfl, ?_, ?_⟩
    · intro shown hshown
      rwa [hac.onlyGives_display hc hpairs hreg shown hshown]
    · intro exported hexported
      exact ⟨_, bindings_of_shown hac hc hpairs hreg hexported, lookup_shownTexts hfound⟩
  · intro m' hm' hprinted
    obtain rfl : m = m' := Value.int.inj (SerialSource.mk.inj (hm.symm.trans hm'))
    obtain ⟨hshown, hkeys, hnodes⟩ :=
      hproved.meets_shown hprinted.kb hprinted.goals hpos.le hprinted.last
    exact exists_exported hac hshown hkeys hprinted.goals hnodes

open Family in
/-- Whose descendant has a parent is exported by the name in the query. -/
theorem exports_family : ∃ tree trail θ shown exported entries,
    Resolver.prove clauses {} 9 (.list (Family.goals.map .literal)) .empty
      { source := ⟨.int 5⟩ } = (.proved tree, trail) ∧ tree.bindings? = some θ ∧
    θ.display true = .ok shown ∧ shown.lookup "Y" = some (.term (person "ann")) ∧
    tree.shown = .ok exported ∧ exported.bindings = some entries ∧
    entries.lookup "Y" = some "ann" := by
  obtain ⟨tree, trail, θ, hprove, hsource, hvalid, hvalue, hbound⟩ : ∃ tree trail θ,
      Resolver.prove clauses {} 9 (.list (Family.goals.map .literal)) .empty
        { source := ⟨.int 5⟩ } = (.proved tree, trail) ∧ trail.source = ⟨.int 10⟩ ∧
      tree.bindings? = some θ ∧
      θ.substitute (.ofVariable (.named "Y")) = .ok (.term (person "ann")) ∧
      θ.IsBound (.named "Y") :=
    ⟨_, _, _, by cbv, by cbv, by cbv, by cbv, _, List.mem_cons_of_mem _ List.mem_cons_self⟩
  have huser : UserWritten Family.goals := by
    simp [UserWritten, Family.goals, ancestor, parent, someone, Literal.occurrences,
      Term.occurrencesList, Term.occurrences, Variable.named]
  have hname : ∃ g ∈ Family.goals, .named "Y" ∈ g.occurrences :=
    ⟨_, List.mem_cons_self, List.mem_cons_of_mem _ List.mem_cons_self⟩
  have hspared : clauses.Spares "Y" := clauses_meets.spares (.refl _) (by decide)
  have hprinted : ∃ m, trail.source = ⟨.int m⟩ ∧ IsPrinted clauses Family.goals .empty 5 m := by
    refine ⟨10, hsource, ⟨by decide, by decide⟩, by decide, Bindings.meets_empty, by decide, ?_⟩
    exact le_self_pow₀ (by decide) (by decide)
  obtain ⟨m, hm, hprinted⟩ := hprinted
  obtain ⟨⟨t, hexport⟩, hexported⟩ :=
    prove_exports clauses_meets rfl (by decide) huser rfl hprove hvalid hname hbound hspared
  obtain ⟨shown, exported, hshown, hexported⟩ := hexported m hm hprinted
  obtain ⟨entries, hentries, htext⟩ := hexport.exported exported hexported
  obtain rfl : person "ann" = t := Item.term.inj (Except.ok.inj (hvalue.symm.trans hexport.value))
  exact ⟨tree, trail, θ, shown, exported, entries, hprove, hvalid, hshown,
    hexport.displayed shown hshown, hexported, hentries, htext⟩

namespace Family

/-- Someone is an owner if there is a pet. -/
def pets : KnowledgeBase := .ofList [
  .fact ⟨.str "person", [person "tom"]⟩,
  .fact ⟨.str "pet", [person "rex"]⟩,
  .rule ⟨⟨.str "owner", [someone "Y"]⟩,
    [⟨.str "person", [someone "Y"]⟩, ⟨.str "pet", [someone "X"]⟩]⟩]

end Family

open Family in
/-- **A value can be overwritten**: the owner is tom, but the first copy of the `X` of the
rule is displayed as the variable of the query is, and its value is exported for both. -/
theorem overwritten_export : ∃ tree trail θ shown exported entries,
    Resolver.prove pets {} 9 (.literal ⟨.str "owner", [someone "X_1"]⟩) .empty
      { source := {} } = (.proved tree, trail) ∧ tree.bindings? = some θ ∧
    θ.substitute (.ofVariable (.named "X_1")) = .ok (.term (person "tom")) ∧
    θ.display true = .ok shown ∧ shown.lookup "X_1" = some (.term (person "rex")) ∧
    tree.shown = .ok exported ∧ exported.bindings = some entries ∧
    entries.lookup "X_1" = some "rex" :=
  ⟨_, _, _, _, _, _, by cbv, by cbv, by cbv, by rfl, by rfl, by rfl, by rfl, by rfl⟩

end HornSearch
