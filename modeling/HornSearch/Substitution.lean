/-
HornSearch/Substitution.lean

Applying an environment to a term or a literal: every bound variable is replaced
by its value, following chains of bindings to their end, and unbound variables
stay.  A literal that takes the place of an argument becomes a constant; variables
in it are replaced before and never after.

Following a chain without end is the fault `Fault.endless`.  A chain that visits
no binding twice has at most as many steps as there are bindings, so the number
of bindings bounds the steps: `Bindings.value` counts them down, and running out
means that some variable reaches itself.
-/
import HornSearch.Bindings

namespace HornSearch

namespace Item

/-- The term in the place of an argument. -/
def asArgument (i : Checked Item) : Checked Term := i.map toTerm

/-- Replaces the variables of a term or a literal by the items that `f` gives. -/
def bindM (f : Variable → Checked Item) : Item → Checked Item
  | .term (.var v) => f v
  | .term t => (t.bindM fun v => asArgument (f v)).map .term
  | .literal l => (l.bindM fun v => asArgument (f v)).map .literal
  | i => .error (.cannotSubstitute i.kind)

end Item

namespace Bindings

/-- The value of a variable after at most `steps` bindings. -/
def value (b : Bindings) : Nat → Variable → Checked Item
  | 0, _ => .error .endless
  | steps + 1, v =>
    match b.lookup (.ofVariable v) with
    | .error e => .error e
    | .ok none => .ok (.ofVariable v)
    | .ok (some i) => i.bindM (b.value steps)

/-- The full value of a variable; the variable itself if it is unbound. -/
def valueOf (b : Bindings) (v : Variable) : Checked Item := b.value (b.size + 1) v

/-- Applies the environment to an item. -/
def substitute (b : Bindings) (i : Item) : Checked Item := i.bindM b.valueOf

/-- Applies the environment to a literal. -/
def substituteLiteral (b : Bindings) (l : Literal) : Checked Literal :=
  l.bindM fun v => Item.asArgument (b.valueOf v)

/-! ### Display -/

/-- Sets the item shown under a name: in its place if the name is there. -/
def setShown (shown : List (String × Item)) (name : String) (i : Item) : List (String × Item) :=
  if shown.any (·.1 == name) then shown.map fun s => if s.1 == name then (name, i) else s
  else shown ++ [(name, i)]

/-- The name that an item is shown under: its text without question marks in
front. -/
def displayName (key : Item) : Checked String :=
  (textOrFault key.text?).map fun text => String.ofList (text.toList.dropWhile (· == '?'))

/-- The values of the bound items by display name, fully substituted or as they
are.  Of several items with one name the last gives the value. -/
def display (b : Bindings) (resolved : Bool) : Checked (List (String × Item)) :=
  b.entries.foldlM (fun shown e => do
    let name ← displayName e.1
    let i ← if resolved then b.substitute e.1 else .ok e.2
    return setShown shown name i) []

end Bindings

end HornSearch
