/-
HornSearch/Proofs/ValueEquality.lean

Equality of values.  `Value.alike` compares the parts of larger values: loose
equality, and a NaN is like itself.

* `alike_refl`: a proper value is like itself;
* `alike_symm`, `alike_trans`: likeness goes both ways and along chains, so it is
  an equivalence on the proper values;
* `sameSymbol_refl`, `sameSymbol_symm`, `sameSymbol_trans`: so is the strict
  equality of the symbols of constants, NaN apart.

A value is proper (`Value.isProper`) if its objects are objects: keys are null,
numbers or strings, and no two of them are the same key.  A quoted constant that
is a NaN is no proper part of a value either, since it is not like itself.

`Value.equals` looks at the left side first.  What each kind of left side is equal
to is said once, in the section on inversion, and the laws follow by induction on
the left side.
-/
import HornSearch.Value
import Mathlib.Data.List.Forall2
import Mathlib.Data.List.Perm.Subperm
import Mathlib.Tactic.Choose

namespace HornSearch

/-! ### Lists related element by element -/

section Related

variable {α β γ : Type*} {R : α → β → Prop} {S : β → γ → Prop} {T : α → γ → Prop}

theorem forall₂_imp_of_mem {Q : α → β → Prop} {xs : List α} {ys : List β}
    (h : List.Forall₂ R xs ys) (hRQ : ∀ x ∈ xs, ∀ y ∈ ys, R x y → Q x y) :
    List.Forall₂ Q xs ys := by
  induction h with
  | nil => exact .nil
  | cons hr _ ih =>
    exact .cons (hRQ _ (by simp) _ (by simp) hr)
      (ih fun x hx y hy => hRQ x (by simp [hx]) y (by simp [hy]))

theorem forall₂_congr_of_mem {Q : α → β → Prop} {xs : List α} {ys : List β}
    (hRQ : ∀ x ∈ xs, ∀ y ∈ ys, R x y ↔ Q x y) : List.Forall₂ R xs ys ↔ List.Forall₂ Q xs ys :=
  ⟨fun h => forall₂_imp_of_mem h fun x hx y hy => (hRQ x hx y hy).1,
    fun h => forall₂_imp_of_mem h fun x hx y hy => (hRQ x hx y hy).2⟩

theorem forall₂_trans_of_mem {xs : List α} {ys : List β} {zs : List γ}
    (h : List.Forall₂ R xs ys) (h' : List.Forall₂ S ys zs)
    (hT : ∀ x ∈ xs, ∀ y ∈ ys, ∀ z, R x y → S y z → T x z) : List.Forall₂ T xs zs := by
  induction h generalizing zs with
  | nil => cases h'; exact .nil
  | cons hr _ ih =>
    obtain - | ⟨hs, h'⟩ := h'
    exact .cons (hT _ (by simp) _ (by simp) _ hr hs)
      (ih h' fun x hx y hy => hT x (by simp [hx]) y (by simp [hy]))

theorem exists_of_forall₂ {xs : List α} {ys : List β} (h : List.Forall₂ R xs ys) {x : α}
    (hx : x ∈ xs) : ∃ y ∈ ys, R x y := by
  induction h with
  | nil => cases hx
  | cons hr _ ih =>
    rcases List.mem_cons.1 hx with rfl | hx
    · exact ⟨_, by simp, hr⟩
    · obtain ⟨y, hy, hr⟩ := ih hx
      exact ⟨y, by simp [hy], hr⟩

/-- Zipping lists that are related element by element relates the pairs. -/
theorem forall₂_zip_zip {δ : Type*} {Q : γ → δ → Prop} {xs : List α} {ys : List β}
    {zs : List γ} {ws : List δ} (h : List.Forall₂ R xs ys) (h' : List.Forall₂ Q zs ws) :
    List.Forall₂ (fun e e' => R e.1 e'.1 ∧ Q e.2 e'.2) (xs.zip zs) (ys.zip ws) := by
  induction h generalizing zs ws with
  | nil => simp
  | cons hr _ ih =>
    cases h' with
    | nil => simp
    | cons hq h' => exact .cons ⟨hr, hq⟩ (ih h')

end Related

namespace Value

/-! ### Proper values -/

/-- Whether the value is a NaN. -/
def isNaN : Value → Bool
  | .float (.nan _) => true
  | _ => false

/-- Whether the value can be the key of an object. -/
def isKey : Value → Bool
  | .null | .bool _ | .int _ | .float _ | .str _ => true
  | _ => false

/-- Whether no two fields have the same key. -/
def distinctKeys (fs : List (Value × Value)) : Bool :=
  decide (fs.Pairwise fun f g => f.1.sameKey g.1 = false)

mutual

/-- Whether the objects in the value have keys that are told apart, and no quoted
constant in it is a NaN. -/
def isProper : Value → Bool
  | .list xs | .tuple xs => areProper xs
  | .object fs => distinctKeys fs && areProperFields fs
  | .quoted .const [a] => !a.isNaN && isProper a
  | .quoted _ xs => areProper xs
  | _ => true

/-- Whether every value of the list is proper. -/
def areProper : List Value → Bool
  | [] => true
  | x :: xs => isProper x && areProper xs

/-- Whether every field has a key that can be one, and a proper value. -/
def areProperFields : List (Value × Value) → Bool
  | [] => true
  | (key, x) :: fs => key.isKey && isProper x && areProperFields fs

end

theorem areProper_iff {xs : List Value} :
    areProper xs = true ↔ ∀ x ∈ xs, x.isProper = true := by
  induction xs with
  | nil => simp [areProper]
  | cons x xs ih => simp [areProper, ih]

theorem areProperFields_iff {fs : List (Value × Value)} :
    areProperFields fs = true ↔ ∀ f ∈ fs, f.1.isKey = true ∧ f.2.isProper = true := by
  induction fs with
  | nil => simp [areProperFields]
  | cons f fs ih => simp [areProperFields, ih]

theorem arePlain_iff {xs : List Value} : arePlain xs = true ↔ ∀ x ∈ xs, x.isPlain = true := by
  induction xs with
  | nil => simp [arePlain]
  | cons x xs ih => simp [arePlain, ih]

theorem arePlainFields_iff {fs : List (Value × Value)} :
    arePlainFields fs = true ↔ ∀ f ∈ fs, f.1.isPlain = true ∧ f.2.isPlain = true := by
  induction fs with
  | nil => simp [arePlainFields]
  | cons f fs ih => simp [arePlainFields, ih]

theorem isProper_of_mem_quoted {s : Shape} {xs : List Value} {x : Value}
    (h : (quoted s xs).isProper = true) (hx : x ∈ xs) : x.isProper = true := by
  rw [isProper.eq_def] at h
  split at h <;> simp_all [areProper_iff]

/-- Induction over values: a claim about a value may use the claim about its
elements, its parts, and the keys and values of its fields. -/
theorem induct {P : Value → Prop} (null : P .null) (bool : ∀ b, P (.bool b))
    (int : ∀ n, P (.int n)) (float : ∀ x, P (.float x)) (str : ∀ s, P (.str s))
    (list : ∀ xs, (∀ x ∈ xs, P x) → P (.list xs))
    (tuple : ∀ xs, (∀ x ∈ xs, P x) → P (.tuple xs))
    (object : ∀ fs, (∀ f ∈ fs, P f.1 ∧ P f.2) → P (.object fs))
    (quoted : ∀ s xs, (∀ x ∈ xs, P x) → P (.quoted s xs)) : ∀ a, P a := by
  refine @Value.rec P (fun xs => ∀ x ∈ xs, P x) (fun fs => ∀ f ∈ fs, P f.1 ∧ P f.2)
    (fun f => P f.1 ∧ P f.2) null bool int float str list tuple object quoted ?_ ?_ ?_ ?_ ?_
  · simp
  · intro x xs hx hxs
    simpa using ⟨hx, hxs⟩
  · simp
  · intro f fs hf hfs
    exact List.forall_mem_cons.2 ⟨hf, hfs⟩
  · exact fun _ _ hkey hx => ⟨hkey, hx⟩

/-! ### Numbers and keys -/

theorem sameQuantity_iff {a b : Value} :
    a.sameQuantity b = true ↔ ∃ p, a.quantity? = some p ∧ b.quantity? = some p := by
  unfold sameQuantity
  rcases a.quantity? with - | p <;> rcases b.quantity? with - | q <;> simp
  exact eq_comm

theorem isSameNaN_comm (a b : Value) : a.isSameNaN b = b.isSameNaN a := by
  unfold isSameNaN Double.isSameNaN
  grind

theorem isSameNaN_trans {a b c : Value} (h : a.isSameNaN b = true) (h' : b.isSameNaN c = true) :
    a.isSameNaN c = true := by
  unfold isSameNaN Double.isSameNaN at *
  grind

/-- A NaN stands for no number. -/
theorem quantity?_of_isSameNaN {a b : Value} (h : a.isSameNaN b = true) :
    a.quantity? = none := by
  unfold isSameNaN Double.isSameNaN at h
  unfold quantity? Double.quantity?
  grind

theorem ofInt_inj {m n : Int} : Quantity.ofInt m = Quantity.ofInt n ↔ m = n := by
  refine ⟨fun h => ?_, congrArg _⟩
  have e : ((m : Int) : Dyadic) = ((n : Int) : Dyadic) := Quantity.exact.inj h
  simpa [Dyadic.toRat_intCast] using congrArg Dyadic.toRat e

theorem sameQuantity_comm (a b : Value) : a.sameQuantity b = b.sameQuantity a := by
  rw [Bool.eq_iff_iff, sameQuantity_iff, sameQuantity_iff]
  exact exists_congr fun _ => and_comm

theorem sameQuantity_trans {a b c : Value} (h : a.sameQuantity b = true)
    (h' : b.sameQuantity c = true) : a.sameQuantity c = true := by
  obtain ⟨p, ha, hb⟩ := sameQuantity_iff.1 h
  obtain ⟨q, hb', hc⟩ := sameQuantity_iff.1 h'
  exact sameQuantity_iff.2 ⟨p, ha, by rw [hc, ← hb', hb]⟩

/-- One key is twice null, one string, one number or one NaN. -/
theorem sameKey_iff {a b : Value} :
    a.sameKey b = true ↔ (a = .null ∧ b = .null) ∨ (∃ s, a = .str s ∧ b = .str s) ∨
      a.sameQuantity b = true ∨ a.isSameNaN b = true := by
  cases a <;> cases b <;> simp [sameKey, sameQuantity, quantity?, isSameNaN]
  exact eq_comm

theorem sameKey_comm (a b : Value) : a.sameKey b = b.sameKey a := by
  rw [Bool.eq_iff_iff, sameKey_iff, sameKey_iff, sameQuantity_comm, isSameNaN_comm]
  grind

theorem sameKey_trans {a b c : Value} (h : a.sameKey b = true) (h' : b.sameKey c = true) :
    a.sameKey c = true := by
  rw [sameKey_iff] at *
  rcases h with ⟨rfl, rfl⟩ | ⟨s, rfl, rfl⟩ | h | h
  · simpa [sameQuantity, quantity?, isSameNaN] using h'
  · simpa [sameQuantity, quantity?, isSameNaN] using h'
  -- numbers and NaNs do not mix, for a NaN has no quantity
  all_goals rcases h' with ⟨rfl, rfl⟩ | ⟨s, rfl, rfl⟩ | h' | h'
  · simp [sameQuantity_iff, quantity?] at h
  · simp [sameQuantity_iff, quantity?] at h
  · exact .inr (.inr (.inl (sameQuantity_trans h h')))
  · simp [sameQuantity_iff, quantity?_of_isSameNaN h'] at h
  · simp [isSameNaN] at h
  · simp [isSameNaN] at h
  · rw [isSameNaN_comm] at h
    simp [sameQuantity_iff, quantity?_of_isSameNaN h] at h'
  · exact .inr (.inr (.inr (isSameNaN_trans h h')))

theorem sameKey_refl {a : Value} (h : a.isKey = true) : a.sameKey a = true := by
  cases a with
  | float x => cases x <;> simp [sameKey, sameQuantity, quantity?, Double.quantity?, isSameNaN,
      Double.isSameNaN]
  | _ => simp_all [isKey, sameKey, sameQuantity, quantity?]

theorem sameKind_refl (a : Value) : a.sameKind a = true := by
  cases a <;> simp [sameKind]

theorem sameKind_comm (a b : Value) : a.sameKind b = b.sameKind a := by
  cases a <;> cases b <;> simp [sameKind, Bool.beq_comm]

theorem sameKind_trans {a b c : Value} (h : a.sameKind b = true) (h' : b.sameKind c = true) :
    a.sameKind c = true := by
  cases a <;> cases b <;> simp [sameKind] at h <;> cases c <;> simp_all [sameKind]

/-- What has the quantity of a number is a number. -/
theorem isNumber_of_sameQuantity {a b : Value} (h : a.sameQuantity b = true) :
    b.isNumber = true := by
  obtain ⟨p, -, hb⟩ := sameQuantity_iff.1 h
  cases b <;> simp [quantity?] at hb <;> rfl

/-! ### What a value is equal to -/

theorem equals_null_iff {b : Value} : equals .null b = true ↔ b = .null := by
  cases b <;> simp [equals]

theorem equals_str_iff {s : String} {b : Value} : equals (.str s) b = true ↔ b = .str s := by
  cases b <;> simp [equals]
  exact eq_comm

/-- A number is equal to the numbers that stand for the same exact number. -/
theorem equals_of_isNumber {a b : Value} (h : a.isNumber = true) :
    a.equals b = a.sameQuantity b := by
  cases a <;> simp [isNumber] at h
  case int m =>
    cases b <;> simp [equals]
    rw [Bool.eq_iff_iff]
    simp only [sameQuantity, quantity?, beq_iff_eq, ofInt_inj]
  all_goals cases b <;> simp [equals]

theorem alikeList_iff {xs ys : List Value} :
    alikeList xs ys = true ↔ List.Forall₂ (fun x y => x.alike y = true) xs ys := by
  induction xs generalizing ys with
  | nil => cases ys <;> simp [alikeList]
  | cons x xs ih => cases ys <;> simp [alikeList, ih, alike]

theorem equals_list_iff {xs : List Value} {b : Value} :
    equals (.list xs) b = true ↔
      ∃ ys, b = .list ys ∧ List.Forall₂ (fun x y => x.alike y = true) xs ys := by
  cases b <;> simp [equals, alikeList_iff]

theorem equals_tuple_iff {xs : List Value} {b : Value} :
    equals (.tuple xs) b = true ↔
      ∃ ys, b = .tuple ys ∧ List.Forall₂ (fun x y => x.alike y = true) xs ys := by
  cases b <;> simp [equals, alikeList_iff]

theorem alikeFields_iff {fs gs : List (Value × Value)} :
    alikeFields fs gs = true ↔ ∀ f ∈ fs, ∃ y, get? f.1 gs = some y ∧ f.2.alike y = true := by
  induction fs with
  | nil => simp [alikeFields]
  | cons f fs ih =>
    rcases e : get? f.1 gs with - | y <;> simp [alikeFields, ih, alike, e]

theorem equals_object_iff {fs : List (Value × Value)} {b : Value} :
    equals (.object fs) b = true ↔ ∃ gs, b = .object gs ∧ fs.length = gs.length ∧
      ∀ f ∈ fs, ∃ y, get? f.1 gs = some y ∧ f.2.alike y = true := by
  cases b <;> simp [equals, alikeFields_iff]

theorem equals_quoted_const_iff {a b : Value} :
    equals (.quoted .const [a]) b = true ↔
      ∃ c, b = .quoted .const [c] ∧ a.sameKind c = true ∧ equals a c = true := by
  rcases b with - | - | - | - | - | - | - | - | ⟨t, - | ⟨c, - | ⟨d, ys⟩⟩⟩ <;>
    try cases t
  all_goals simp [equals, alikeList]

/-- Pieces of syntax are equal part by part, constants apart, of which the strict
equality is asked. -/
theorem equals_quoted_iff {s : Shape} {xs : List Value} {b : Value}
    (h : ∀ a, ¬ (s = .const ∧ xs = [a])) :
    equals (.quoted s xs) b = true ↔
      ∃ ys, b = .quoted s ys ∧ List.Forall₂ (fun x y => x.alike y = true) xs ys := by
  cases b <;> simp [equals]
  rename_i t ys
  rw [equals.eq_def]
  grind [alikeList_iff]

theorem not_equals_nan_left {i : Nat} {c : Value} : ¬ equals (.float (.nan i)) c = true := by
  rw [equals_of_isNumber rfl]
  simp [sameQuantity, quantity?, Double.quantity?]

theorem not_equals_nan_right {i : Nat} {c : Value} : ¬ equals c (.float (.nan i)) = true := by
  cases c <;> simp [equals, sameQuantity, quantity?, Double.quantity?]

theorem not_single_of_forall₂ {s : Shape} {xs ys : List Value} {R : Value → Value → Prop}
    (h : ∀ a, ¬ (s = .const ∧ xs = [a])) (hR : List.Forall₂ R xs ys) :
    ∀ b, ¬ (s = .const ∧ ys = [b]) := by
  rintro b ⟨rfl, rfl⟩
  obtain ⟨a, zs, -, h0, rfl⟩ := List.forall₂_cons_right_iff.1 hR
  obtain rfl := List.forall₂_nil_right_iff.1 h0
  exact h a ⟨rfl, rfl⟩

/-- A NaN is a double, or quoted as a constant. -/
theorem isSameNaN_iff {a b : Value} : a.isSameNaN b = true ↔ ∃ i,
    (a = .float (.nan i) ∧ b = .float (.nan i)) ∨
      (a = .quoted .const [.float (.nan i)] ∧ b = .quoted .const [.float (.nan i)]) := by
  constructor
  · intro h
    unfold isSameNaN Double.isSameNaN at h
    grind
  · rintro ⟨i, ⟨rfl, rfl⟩ | ⟨rfl, rfl⟩⟩ <;> simp [isSameNaN, Double.isSameNaN]

theorem isSameNaN_self {a : Value} (h : a.isNaN = true) : a.isSameNaN a = true := by
  rw [isNaN.eq_def] at h
  split at h
  · simp [isSameNaN, Double.isSameNaN]
  · cases h

/-- A NaN equals nothing, alone or as the symbol of a constant. -/
theorem not_equals_of_isSameNaN_left {a b c : Value} (h : a.isSameNaN b = true) :
    ¬ b.equals c = true := by
  obtain ⟨i, ⟨-, rfl⟩ | ⟨-, rfl⟩⟩ := isSameNaN_iff.1 h
  · exact not_equals_nan_left
  · rw [equals_quoted_const_iff]
    rintro ⟨c, -, -, hc⟩
    exact not_equals_nan_left hc

/-- Nothing equals a NaN. -/
theorem not_equals_of_isSameNaN_right {a b c : Value} (h : a.isSameNaN b = true) :
    ¬ c.equals a = true := by
  obtain ⟨i, ⟨rfl, -⟩ | ⟨rfl, -⟩⟩ := isSameNaN_iff.1 h
  · exact not_equals_nan_right
  · intro hc
    cases c with
    | quoted t ys =>
      by_cases ht : ∃ d, t = .const ∧ ys = [d]
      · obtain ⟨d, rfl, rfl⟩ := ht
        simp [equals, not_equals_nan_right] at hc
      · obtain ⟨zs, e, hzs⟩ := (equals_quoted_iff fun d hd => ht ⟨d, hd⟩).1 hc
        obtain ⟨rfl, rfl⟩ := Value.quoted.inj e
        exact not_single_of_forall₂ (fun d hd => ht ⟨d, hd⟩) hzs _ ⟨rfl, rfl⟩
    | _ => simp [equals, sameQuantity, quantity?] at hc

theorem alike_iff {a b : Value} : a.alike b = true ↔ a.isSameNaN b = true ∨ a.equals b = true := by
  simp [alike]

/-! ### The laws -/

/-- A field is found under its own key, if no other field has that key. -/
theorem get?_of_mem {fs : List (Value × Value)} {key : Value} {g : Value × Value}
    (hd : distinctKeys fs = true) (hg : g ∈ fs) (hk : g.1.sameKey key = true) :
    get? key fs = some g.2 := by
  rw [distinctKeys, decide_eq_true_eq] at hd
  induction hd with
  | nil => cases hg
  | @cons f fs hf _ ih =>
    by_cases e : f.1.sameKey key = true
    · rcases List.mem_cons.1 hg with rfl | hg
      · simp [get?, e]
      · have hfg : f.1.sameKey g.1 = true := sameKey_trans e (by rwa [sameKey_comm])
        exact absurd hfg (by simp [hf g hg])
    · rcases List.mem_cons.1 hg with rfl | hg
      · exact absurd hk e
      · simpa [get?, List.find?_cons, e] using ih hg

theorem mem_of_get? {fs : List (Value × Value)} {key y : Value} (h : get? key fs = some y) :
    ∃ g ∈ fs, g.1.sameKey key = true ∧ g.2 = y := by
  obtain ⟨g, hg, rfl⟩ := Option.map_eq_some_iff.1 h
  exact ⟨g, List.mem_of_find?_eq_some hg, by simpa using List.find?_some hg, rfl⟩

/-- The same key finds the same field. -/
theorem get?_congr {fs : List (Value × Value)} {key key' : Value}
    (h : key.sameKey key' = true) : get? key fs = get? key' fs := by
  have e : ∀ f : Value × Value, f.1.sameKey key = f.1.sameKey key' := by
    intro f
    rw [Bool.eq_iff_iff]
    exact ⟨fun hf => sameKey_trans hf h, fun hf => sameKey_trans hf (by rwa [sameKey_comm])⟩
  simp [get?, e]

/-- Likeness is transitive at a value if equality is. -/
theorem alike_trans_of {a b c : Value} (ha : a.equals b = true → b.equals c = true →
    a.equals c = true) (h : a.alike b = true) (h' : b.alike c = true) : a.alike c = true := by
  rw [alike_iff] at *
  rcases h with h | h <;> rcases h' with h' | h'
  · exact .inl (isSameNaN_trans h h')
  · exact absurd h' (not_equals_of_isSameNaN_left h)
  · exact absurd h (not_equals_of_isSameNaN_right h')
  · exact .inr (ha h h')

theorem equals_trans {a b c : Value} (h : a.equals b = true) (h' : b.equals c = true) :
    a.equals c = true := by
  induction a using induct generalizing b c with
  | null =>
    obtain rfl := equals_null_iff.1 h
    exact h'
  | str s =>
    obtain rfl := equals_str_iff.1 h
    exact h'
  | bool | int | float =>
    -- a number equals numbers only, of whatever kind
    rw [equals_of_isNumber rfl] at h ⊢
    rw [equals_of_isNumber (isNumber_of_sameQuantity h)] at h'
    exact sameQuantity_trans h h'
  | list xs ih =>
    obtain ⟨ys, rfl, hy⟩ := equals_list_iff.1 h
    obtain ⟨zs, rfl, hz⟩ := equals_list_iff.1 h'
    exact equals_list_iff.2 ⟨zs, rfl, forall₂_trans_of_mem hy hz
      fun x hx y _ z => alike_trans_of (ih x hx)⟩
  | tuple xs ih =>
    obtain ⟨ys, rfl, hy⟩ := equals_tuple_iff.1 h
    obtain ⟨zs, rfl, hz⟩ := equals_tuple_iff.1 h'
    exact equals_tuple_iff.2 ⟨zs, rfl, forall₂_trans_of_mem hy hz
      fun x hx y _ z => alike_trans_of (ih x hx)⟩
  | object fs ih =>
    obtain ⟨gs, rfl, hl, hg⟩ := equals_object_iff.1 h
    obtain ⟨hs, rfl, hl', hh⟩ := equals_object_iff.1 h'
    refine equals_object_iff.2 ⟨hs, rfl, hl.trans hl', fun f hf => ?_⟩
    obtain ⟨y, hy, hfy⟩ := hg f hf
    obtain ⟨g, hgmem, hk, rfl⟩ := mem_of_get? hy
    obtain ⟨z, hz, hyz⟩ := hh g hgmem
    -- the keys are the same, so each finds what the other finds
    exact ⟨z, by rw [← get?_congr hk, hz], alike_trans_of (ih f hf).2 hfy hyz⟩
  | quoted s xs ih =>
    -- a quoted constant is compared as a symbol, all else part by part
    by_cases hs : ∃ a, s = .const ∧ xs = [a]
    · obtain ⟨a, rfl, rfl⟩ := hs
      obtain ⟨b, rfl, hk, hb⟩ := equals_quoted_const_iff.1 h
      obtain ⟨c, rfl, hk', hc⟩ := equals_quoted_const_iff.1 h'
      exact equals_quoted_const_iff.2 ⟨c, rfl, sameKind_trans hk hk', ih a (by simp) hb hc⟩
    · have hs' : ∀ a, ¬ (s = .const ∧ xs = [a]) := fun a ha => hs ⟨a, ha⟩
      obtain ⟨ys, rfl, hy⟩ := (equals_quoted_iff hs').1 h
      obtain ⟨zs, rfl, hz⟩ := (equals_quoted_iff (not_single_of_forall₂ hs' hy)).1 h'
      exact (equals_quoted_iff hs').2 ⟨zs, rfl, forall₂_trans_of_mem hy hz
        fun x hx y _ z => alike_trans_of (ih x hx)⟩

theorem alike_trans {a b c : Value} (h : a.alike b = true) (h' : b.alike c = true) :
    a.alike c = true :=
  alike_trans_of equals_trans h h'

theorem alike_symm_of {a b : Value} (ha : a.equals b = true → b.equals a = true)
    (h : a.alike b = true) : b.alike a = true := by
  rw [alike_iff] at *
  exact h.imp (fun h => by rwa [isSameNaN_comm]) ha

/-- Objects with as many fields, each of which has its like in the other: then the
other way round as well, since no two fields can have the same like. -/
theorem alikeFields_symm {fs gs : List (Value × Value)} (hfs : distinctKeys fs = true)
    (hl : fs.length = gs.length)
    (h : ∀ f ∈ fs, ∃ y, get? f.1 gs = some y ∧ y.alike f.2 = true) :
    ∀ g ∈ gs, ∃ x, get? g.1 fs = some x ∧ g.2.alike x = true := by
  -- the like of each field, as a function
  have h' : ∀ f ∈ fs, ∃ g ∈ gs, g.1.sameKey f.1 = true ∧ g.2.alike f.2 = true := by
    intro f hf
    obtain ⟨y, hy, hyf⟩ := h f hf
    obtain ⟨g, hg, hk, rfl⟩ := mem_of_get? hy
    exact ⟨g, hg, hk, hyf⟩
  choose! like hmem hkey hlike using h'
  have hnodup : (fs.map like).Nodup := by
    rw [distinctKeys, decide_eq_true_eq] at hfs
    refine List.pairwise_map.2 (hfs.imp_of_mem fun {f f'} hf hf' hff' e => ?_)
    have hk : f.1.sameKey f'.1 = true := by
      refine sameKey_trans ?_ (hkey f' hf')
      rw [sameKey_comm, ← e]
      exact hkey f hf
    exact absurd hk (by simp [hff'])
  have hsub : fs.map like ⊆ gs := by
    intro g hg
    obtain ⟨f, hf, rfl⟩ := List.mem_map.1 hg
    exact hmem f hf
  -- the likes are all different and as many as there are fields, so they are all of them
  have hperm := (List.subperm_of_subset hnodup hsub).perm_of_length_le (by simp [hl])
  intro g hg
  obtain ⟨f, hf, rfl⟩ := List.mem_map.1 (hperm.mem_iff.2 hg)
  exact ⟨f.2, get?_of_mem hfs hf (by rw [sameKey_comm]; exact hkey f hf), hlike f hf⟩

theorem equals_symm {a b : Value} (ha : a.isProper = true) (hb : b.isProper = true)
    (h : a.equals b = true) : b.equals a = true := by
  induction a using induct generalizing b with
  | null =>
    obtain rfl := equals_null_iff.1 h
    exact h
  | str s =>
    obtain rfl := equals_str_iff.1 h
    exact h
  | bool | int | float =>
    rw [equals_of_isNumber rfl] at h
    rwa [equals_of_isNumber (isNumber_of_sameQuantity h), sameQuantity_comm]
  | list xs ih =>
    obtain ⟨ys, rfl, hy⟩ := equals_list_iff.1 h
    simp only [isProper, areProper_iff] at ha hb
    refine equals_list_iff.2 ⟨xs, rfl, (forall₂_imp_of_mem hy ?_).flip⟩
    exact fun x hx y hy => alike_symm_of (ih x hx (ha x hx) (hb y hy))
  | tuple xs ih =>
    obtain ⟨ys, rfl, hy⟩ := equals_tuple_iff.1 h
    simp only [isProper, areProper_iff] at ha hb
    refine equals_tuple_iff.2 ⟨xs, rfl, (forall₂_imp_of_mem hy ?_).flip⟩
    exact fun x hx y hy => alike_symm_of (ih x hx (ha x hx) (hb y hy))
  | object fs ih =>
    obtain ⟨gs, rfl, hl, hg⟩ := equals_object_iff.1 h
    simp only [isProper, Bool.and_eq_true, areProperFields_iff] at ha hb
    refine equals_object_iff.2 ⟨fs, rfl, hl.symm, alikeFields_symm ha.1 hl fun f hf => ?_⟩
    obtain ⟨y, hy, hfy⟩ := hg f hf
    obtain ⟨g, hgmem, -, rfl⟩ := mem_of_get? hy
    exact ⟨g.2, hy, alike_symm_of ((ih f hf).2 (ha.2 f hf).2 (hb.2 g hgmem).2) hfy⟩
  | quoted s xs ih =>
    by_cases hs : ∃ a, s = .const ∧ xs = [a]
    · obtain ⟨a, rfl, rfl⟩ := hs
      obtain ⟨b, rfl, hk, hb'⟩ := equals_quoted_const_iff.1 h
      simp only [isProper, Bool.and_eq_true] at ha hb
      exact equals_quoted_const_iff.2
        ⟨a, rfl, by rwa [sameKind_comm], ih a (by simp) ha.2 hb.2 hb'⟩
    · have hs' : ∀ a, ¬ (s = .const ∧ xs = [a]) := fun a ha => hs ⟨a, ha⟩
      obtain ⟨ys, rfl, hy⟩ := (equals_quoted_iff hs').1 h
      refine (equals_quoted_iff (not_single_of_forall₂ hs' hy)).2
        ⟨xs, rfl, (forall₂_imp_of_mem hy ?_).flip⟩
      exact fun x hx y hy => alike_symm_of
        (ih x hx (isProper_of_mem_quoted ha hx) (isProper_of_mem_quoted hb hy))

theorem alike_symm {a b : Value} (ha : a.isProper = true) (hb : b.isProper = true)
    (h : a.alike b = true) : b.alike a = true :=
  alike_symm_of (equals_symm ha hb) h

theorem alike_refl_of {a : Value} (h : a.isNaN = false → a.equals a = true) :
    a.alike a = true := by
  rw [alike_iff]
  cases hn : a.isNaN
  · exact .inr (h hn)
  · exact .inl (isSameNaN_self hn)

/-- A proper value that is no NaN equals itself. -/
theorem equals_refl {a : Value} (ha : a.isProper = true) (hn : a.isNaN = false) :
    a.equals a = true := by
  induction a using induct with
  | null | bool | int | str => simp [equals, sameQuantity, quantity?]
  | float x => cases x <;> simp_all [isNaN, equals, sameQuantity, quantity?, Double.quantity?]
  | list xs ih =>
    simp only [isProper, areProper_iff] at ha
    exact equals_list_iff.2 ⟨xs, rfl, List.forall₂_same.2 fun x hx =>
      alike_refl_of (ih x hx (ha x hx))⟩
  | tuple xs ih =>
    simp only [isProper, areProper_iff] at ha
    exact equals_tuple_iff.2 ⟨xs, rfl, List.forall₂_same.2 fun x hx =>
      alike_refl_of (ih x hx (ha x hx))⟩
  | object fs ih =>
    simp only [isProper, Bool.and_eq_true, areProperFields_iff] at ha
    refine equals_object_iff.2 ⟨fs, rfl, rfl, fun f hf => ?_⟩
    obtain ⟨hkey, hval⟩ := ha.2 f hf
    exact ⟨f.2, get?_of_mem ha.1 hf (sameKey_refl hkey), alike_refl_of ((ih f hf).2 hval)⟩
  | quoted s xs ih =>
    by_cases hs : ∃ a, s = .const ∧ xs = [a]
    · obtain ⟨a, rfl, rfl⟩ := hs
      simp only [isProper, Bool.and_eq_true, Bool.not_eq_true'] at ha
      exact equals_quoted_const_iff.2 ⟨a, rfl, sameKind_refl a, ih a (by simp) ha.2 ha.1⟩
    · exact (equals_quoted_iff fun a ha => hs ⟨a, ha⟩).2 ⟨xs, rfl, List.forall₂_same.2
        fun x hx => alike_refl_of (ih x hx (isProper_of_mem_quoted ha hx))⟩

theorem alike_refl {a : Value} (ha : a.isProper = true) : a.alike a = true :=
  alike_refl_of (equals_refl ha)

/-! ### Strict equality -/

theorem sameSymbol_refl {a : Value} (ha : a.isProper = true) (hn : a.isNaN = false) :
    a.sameSymbol a = true := by
  simp [sameSymbol, sameKind_refl, equals_refl ha hn]

theorem sameSymbol_symm {a b : Value} (ha : a.isProper = true) (hb : b.isProper = true)
    (h : a.sameSymbol b = true) : b.sameSymbol a = true := by
  rw [sameSymbol, Bool.and_eq_true] at *
  exact ⟨by rw [sameKind_comm, h.1], equals_symm ha hb h.2⟩

/-- A proper value that is no NaN is not the same NaN as another. -/
theorem isSameNaN_eq_false {a b : Value} (ha : a.isProper = true) (hn : a.isNaN = false) :
    a.isSameNaN b = false := by
  rw [Bool.eq_false_iff]
  intro h
  obtain ⟨i, ⟨rfl, -⟩ | ⟨rfl, -⟩⟩ := isSameNaN_iff.1 h
  · simp [isNaN] at hn
  · simp [isProper, isNaN] at ha

theorem sameSymbol_trans {a b c : Value} (h : a.sameSymbol b = true)
    (h' : b.sameSymbol c = true) : a.sameSymbol c = true := by
  rw [sameSymbol, Bool.and_eq_true] at *
  exact ⟨sameKind_trans h.1 h'.1, equals_trans h.2 h'.2⟩

/-- Being the same NaN or the same symbol is transitive, since a NaN is the same
symbol as none. -/
theorem sameNaN_or_sameSymbol_trans {a b c : Value}
    (h : a.isSameNaN b = true ∨ a.sameSymbol b = true)
    (h' : b.isSameNaN c = true ∨ b.sameSymbol c = true) :
    a.isSameNaN c = true ∨ a.sameSymbol c = true := by
  rcases h with h | h <;> rcases h' with h' | h'
  · exact .inl (isSameNaN_trans h h')
  · exact absurd (Bool.and_eq_true_iff.1 h').2 (not_equals_of_isSameNaN_left h)
  · exact absurd (Bool.and_eq_true_iff.1 h).2 (not_equals_of_isSameNaN_right h')
  · exact .inr (sameSymbol_trans h h')

end Value

end HornSearch
