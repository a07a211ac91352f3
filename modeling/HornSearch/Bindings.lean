/-
HornSearch/Bindings.lean

Binding environments: lists of bindings in the order in which they were made.  An
environment is never changed; extending it gives a longer one, so a branch of a
search that is given up leaves nothing behind.

Keys are usually variables and values terms, but any item may stand in either
place.  A variable bound to null counts as unbound when it is looked up, yet
cannot be bound a second time.
-/
import HornSearch.Item.Classes

namespace HornSearch

/-- A binding environment. -/
structure Bindings where
  entries : List (Item × Item) := []
  deriving Inhabited

namespace Bindings

/-- The environment without bindings. -/
def empty : Bindings := ⟨[]⟩

/-- The number of bindings. -/
def size (b : Bindings) : Nat := b.entries.length

/-- The bound items, in order. -/
def keys (b : Bindings) : List Item := b.entries.map (·.1)

/-- The items they are bound to, in order. -/
def values (b : Bindings) : List Item := b.entries.map (·.2)

/-- The item that `key` is bound to. -/
def find? (b : Bindings) (key : Item) : Option Item :=
  (b.entries.find? (·.1.alike key)).map (·.2)

/-- Sets a binding: in its place if the key is there, else at the end. -/
def set (b : Bindings) (key value : Item) : Bindings :=
  if (b.find? key).isSome then
    ⟨b.entries.map fun e => if e.1.alike key then (e.1, value) else e⟩
  else ⟨b.entries ++ [(key, value)]⟩

/-- The environment of a list of bindings, in which a later binding of the same
key replaces the value of an earlier one. -/
def ofList (entries : List (Item × Item)) : Checked Bindings :=
  if entries.all (·.1.isHashable) then
    .ok (entries.foldl (fun b e => b.set e.1 e.2) empty)
  else .error .wrongKind

/-- The item that `key` is directly bound to, null included. -/
def get? (b : Bindings) (key : Item) : Checked (Option Item) :=
  if key.isHashable then .ok (b.find? key) else .error .wrongKind

/-- The item that `key` is directly bound to; null counts as none. -/
def lookup (b : Bindings) (key : Item) : Checked (Option Item) :=
  match b.get? key with
  | .ok (some (.raw .null)) => .ok none
  | found => found

/-- The environment with one binding more. -/
def extend (b : Bindings) (key value : Item) : Checked Bindings :=
  match b.get? key with
  | .error e => .error e
  | .ok none => .ok ⟨b.entries ++ [(key, value)]⟩
  | .ok (some old) =>
    (textOrFault key.text?).bind fun name => (textOrFault old.text?).bind fun shown =>
      .error (.alreadyBound name shown)

/-- Extending succeeds exactly for a key that is not bound, and adds one binding at
the end. -/
theorem extend_eq_ok_iff {b c : Bindings} {key value : Item} :
    b.extend key value = .ok c ↔
      key.isHashable = true ∧ b.find? key = none ∧ c = ⟨b.entries ++ [(key, value)]⟩ := by
  unfold extend get?
  cases hk : key.isHashable <;> cases hf : b.find? key <;> simp [eq_comm]
  rename_i old
  cases textOrFault key.text? <;> cases textOrFault old.text? <;> simp [Except.bind]

/-- Whether an environment that grew out of `b` has bindings that `b` has not. -/
def hasGrown (b c : Bindings) : Bool := b.size != c.size

/-- Whether two environments bind the same keys to equal items, in any order. -/
def equals (b c : Bindings) : Bool :=
  b.size == c.size && b.entries.all fun e =>
    match c.find? e.1 with
    | some value => e.2.alike value
    | none => false

/-- The text of one binding. -/
def entryText? (e : Item × Item) : Except TextFlaw String := do
  let key ← e.1.text?
  let value ← e.2.text?
  return key ++ ": " ++ value

/-- The text of an environment. -/
def text? (b : Bindings) : Except TextFlaw String := do
  let pairs ← b.entries.mapM entryText?
  return "Bindings(\x7b" ++ ", ".intercalate pairs ++ "\x7d)"

end Bindings

end HornSearch
