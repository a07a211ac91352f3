/-
HornSearch/Proofs/Results.lean

Checked computations that succeed, such that fail only in certain ways, and such that have one
result if any, one step at a time and over lists; and what is found in a table of names.
-/
import Mathlib.Data.List.Forall2

namespace HornSearch

/-! ### Checked computations -/

section Checked

variable {ε α β : Type} {f : α → Except ε β} {as : List α} {b : β} {bs : List β}

theorem ok_bind {ε α β : Type} (a : α) (f : α → Except ε β) : (Except.ok a >>= f) = f a := rfl

theorem bind_eq_ok_iff {x : Except ε α} : (x >>= f) = .ok b ↔ ∃ a, x = .ok a ∧ f a = .ok b := by
  cases x with
  | error e => simp [bind, Except.bind]
  | ok a => simp [bind, Except.bind]

theorem mapM_eq_ok {g : α → β} (h : ∀ a ∈ as, f a = .ok (g a)) :
    as.mapM f = .ok (as.map g) := by
  induction as with
  | nil => rfl
  | cons a as ih =>
    obtain ⟨ha, has⟩ := List.forall_mem_cons.1 h
    rw [List.mapM_cons, ha, ok_bind, ih has]
    rfl

/-- A list is mapped element by element. -/
theorem mapM_eq_ok_iff : as.mapM f = .ok bs ↔ List.Forall₂ (fun a b => f a = .ok b) as bs := by
  induction as generalizing bs with
  | nil => cases bs <;> simp [pure, Except.pure]
  | cons a as ih =>
    rw [List.mapM_cons, bind_eq_ok_iff]
    constructor
    · rintro ⟨b, hb, h⟩
      obtain ⟨rest, hrest, h⟩ := bind_eq_ok_iff.1 h
      obtain rfl := Except.ok.inj h
      exact .cons hb (ih.1 hrest)
    · rintro (_ | ⟨hb, hrest⟩)
      exact ⟨_, hb, bind_eq_ok_iff.2 ⟨_, ih.2 hrest, rfl⟩⟩

theorem foldlM_eq_ok {f : β → α → Except ε β} {g : β → α → β}
    (h : ∀ b, ∀ a ∈ as, f b a = .ok (g b a)) (b : β) : as.foldlM f b = .ok (as.foldl g b) := by
  induction as generalizing b with
  | nil => rfl
  | cons a as ih =>
    rw [List.foldlM_cons, h b a List.mem_cons_self, ok_bind,
      ih fun b a' ha' => h b a' (List.mem_cons_of_mem _ ha')]
    rfl

/-- The computation fails only with such errors. -/
def FailsWith (p : ε → Prop) (x : Except ε α) : Prop := ∀ e, x = .error e → p e

variable {p : ε → Prop}

theorem failsWith_ok (a : α) : FailsWith p (.ok a) := fun _ h => by cases h

theorem failsWith_error {e : ε} (h : p e) : FailsWith p (.error e : Except ε α) := by
  rintro _ ⟨⟩
  exact h

theorem FailsWith.map {x : Except ε α} {g : α → β} (hx : FailsWith p x) :
    FailsWith p (x.map g) := by
  cases x with
  | error e => exact failsWith_error (hx e rfl)
  | ok a => exact failsWith_ok _

theorem FailsWith.bind {x : Except ε α} (hx : FailsWith p x)
    (hf : ∀ a, x = .ok a → FailsWith p (f a)) : FailsWith p (x >>= f) := by
  cases x with
  | error e => exact failsWith_error (hx e rfl)
  | ok a => exact hf a rfl

theorem FailsWith.mapM (h : ∀ a ∈ as, FailsWith p (f a)) : FailsWith p (as.mapM f) := by
  induction as with
  | nil => exact failsWith_ok _
  | cons a as ih =>
    obtain ⟨ha, has⟩ := List.forall_mem_cons.1 h
    rw [List.mapM_cons]
    exact ha.bind fun _ _ => (ih has).bind fun _ _ => failsWith_ok _

theorem FailsWith.foldlM {f : β → α → Except ε β} (h : ∀ b, ∀ a ∈ as, FailsWith p (f b a))
    (b : β) : FailsWith p (as.foldlM f b) := by
  induction as generalizing b with
  | nil => exact failsWith_ok _
  | cons a as ih =>
    rw [List.foldlM_cons]
    refine (h b a List.mem_cons_self).bind fun b' _ => ih (fun b'' a' ha' => ?_) b'
    exact h b'' a' (List.mem_cons_of_mem _ ha')

/-- The computation has no other result than this. -/
def OnlyGives (x : Except ε α) (a : α) : Prop := ∀ b, x = .ok b → b = a

theorem onlyGives_ok (a : α) : OnlyGives (.ok a : Except ε α) a :=
  fun _ h => (Except.ok.inj h).symm

theorem onlyGives_error (e : ε) {a : α} : OnlyGives (.error e) a := fun _ h => by cases h

theorem OnlyGives.bind {x : Except ε α} {a : α} (hx : OnlyGives x a) (hf : OnlyGives (f a) b) :
    OnlyGives (x >>= f) b := by
  intro b' h
  obtain ⟨a', ha', hb'⟩ := bind_eq_ok_iff.1 h
  obtain rfl := hx a' ha'
  exact hf b' hb'

theorem OnlyGives.map {x : Except ε α} {a : α} (hx : OnlyGives x a) (g : α → β) :
    OnlyGives (x.map g) (g a) := by
  cases x with
  | error e => exact onlyGives_error _
  | ok a' =>
    obtain rfl := hx a' rfl
    exact onlyGives_ok _

theorem OnlyGives.mapM {g : α → β} (h : ∀ a ∈ as, OnlyGives (f a) (g a)) :
    OnlyGives (as.mapM f) (as.map g) := by
  induction as with
  | nil => exact onlyGives_ok _
  | cons a as ih =>
    obtain ⟨ha, has⟩ := List.forall_mem_cons.1 h
    rw [List.mapM_cons]
    exact ha.bind ((ih has).bind (onlyGives_ok _))

theorem OnlyGives.foldlM {f : β → α → Except ε β} {g : β → α → β}
    (h : ∀ b, ∀ a ∈ as, OnlyGives (f b a) (g b a)) (b : β) :
    OnlyGives (as.foldlM f b) (as.foldl g b) := by
  induction as generalizing b with
  | nil => exact onlyGives_ok _
  | cons a as ih =>
    rw [List.foldlM_cons]
    refine (h b a List.mem_cons_self).bind (ih (fun b' a' ha' => ?_) _)
    exact h b' a' (List.mem_cons_of_mem _ ha')

end Checked

/-! ### Tables of names -/

section Lookup

variable {α β : Type} {key name : String} {a : α} {entries : List (String × α)}

theorem lookup_cons_eq : ((key, a) :: entries).lookup name =
    if name = key then some a else entries.lookup name := by
  by_cases h : name = key
  · simp [h]
  · show (match name == key with | true => some a | false => entries.lookup name) = _
    rw [beq_false_of_ne h, if_neg h]

/-- Changing the values under the names changes what is found. -/
theorem lookup_map (f : String → α → β) :
    (entries.map fun e => (e.1, f e.1 e.2)).lookup name = (entries.lookup name).map (f name) := by
  induction entries with
  | nil => rfl
  | cons e entries ih =>
    rw [List.map_cons, lookup_cons_eq, lookup_cons_eq, ih]
    by_cases h : name = e.1
    · simp [h]
    · simp [h]

/-- If all entries with a name agree, then what one of them says is found. -/
theorem lookup_of_mem (h : (name, a) ∈ entries) (hall : ∀ b, (name, b) ∈ entries → b = a) :
    entries.lookup name = some a := by
  induction entries with
  | nil => cases h
  | cons e entries ih =>
    obtain ⟨key, b⟩ := e
    rw [lookup_cons_eq]
    by_cases hkey : name = key
    · subst hkey
      rw [if_pos rfl, hall b List.mem_cons_self]
    · rw [if_neg hkey]
      have hmem : (name, a) ∈ entries := by simpa [hkey] using h
      exact ih hmem fun b hb => hall b (List.mem_cons_of_mem _ hb)

end Lookup

end HornSearch
