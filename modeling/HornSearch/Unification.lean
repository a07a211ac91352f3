/-
HornSearch/Unification.lean

Unification of terms, literals and sequences, starting from an environment and
extending it by the bindings of a most general unifier.

Terms are compared from left to right.  A bound variable stands for the item it
is bound to, one binding at a time, and the occurs check is made whenever a
variable would be bound to a function term.

`unifyWithin` counts down the nesting of its calls.  Along one path of calls each
call either enters a pair of function terms or follows a binding, and each new
binding makes one variable less unbound; under bindings without a cycle the depth
is therefore below `nestingBound`, which the operations start from, and running
out of it is the fault `Fault.endless`.
-/
import HornSearch.FreeVariables
import HornSearch.Substitution

namespace HornSearch

/-! ### A bound on nesting -/

namespace Item

mutual

/-- The number of occurrences of variables in an item. -/
def variableCount : Item → Nat
  | .term t => t.occurrences.length
  | .literal l => l.occurrences.length
  | .rule r => r.occurrences.length
  | .list xs => variableCountList xs
  | .tuple xs => variableCountList xs
  | .raw _ => 0

/-- The number of occurrences of variables in a list of items. -/
def variableCountList : List Item → Nat
  | [] => 0
  | x :: xs => variableCount x + variableCountList xs

end

mutual

/-- The greatest height of a term in an item. -/
def height : Item → Nat
  | .term t => t.height
  | .literal l => l.height
  | .rule r => r.body.foldl (fun h l => max h l.height) r.head.height
  | .list xs => heightList xs
  | .tuple xs => heightList xs
  | .raw _ => 0

/-- The greatest height of a term in a list of items. -/
def heightList : List Item → Nat
  | [] => 0
  | x :: xs => max (height x) (heightList xs)

end

end Item

namespace Bindings

/-- The bindings, and the occurrences of variables in their values. -/
def variableCount (b : Bindings) : Nat := b.size + Item.variableCountList b.values

/-- The greatest height of a bound term. -/
def height (b : Bindings) : Nat := Item.heightList b.values

end Bindings

/-- A bound on the nesting of the calls that unify two lists of items. -/
def nestingBound (xs ys : List Item) (b : Bindings) : Nat :=
  let count := b.variableCount + Item.variableCountList xs + Item.variableCountList ys
  let height := max b.height (max (Item.heightList xs) (Item.heightList ys))
  (count + 1) * ((count + 1) * (height + 3) + 1)

/-! ### The occurs check -/

/-- Whether `key` occurs in an item once the environment is applied. -/
def occursIn (key i : Item) (b : Bindings) : Checked Bool := do
  let vs ← (← b.substitute i).checkedVariables
  if key.isHashable then return vs.any fun v => key == .ofVariable v
  else throw .wrongKind

/-! ### Unification -/

/-- Unifies two items under an environment; no answer is a failure to unify. -/
abbrev Unifier := Item → Item → Bindings → Checked (Option Bindings)

/-- Unifies two lists item by item, each under the bindings of the items before;
lists of different lengths do not unify. -/
def unifyEach (unifier : Unifier) :
    List Item → List Item → Bindings → Checked (Option Bindings)
  | [], [], b => .ok (some b)
  | x :: xs, y :: ys, b =>
    match unifier x y b with
    | .ok (some c) => unifyEach unifier xs ys c
    | failed => failed
  | _, _, _ => .ok none

/-- Binds an unbound variable to an item that is no bound variable, unless it
occurs in it. -/
def bindUnbound (v : Variable) (y : Item) (b : Bindings) : Checked (Option Bindings) :=
  match y with
  | .term (.app _ _) =>
    match occursIn (.ofVariable v) y b with
    | .ok true => .ok none
    | .ok false => (b.extend (.ofVariable v) y).map some
    | .error e => .error e
  | _ => (b.extend (.ofVariable v) y).map some

/-- Unifies a variable with an item; whatever stands for either of them under the
environment goes to `unifier`. -/
def unifyVariable (unifier : Unifier) (v : Variable) (y : Item) (b : Bindings) :
    Checked (Option Bindings) :=
  if .ofVariable v == y then .ok (some b) else
  match b.lookup (.ofVariable v) with
  | .error e => .error e
  -- the sides change places, so that the item comes first
  | .ok (some bound) => unifier y bound b
  | .ok none =>
    match y with
    | .term (.var w) =>
      match b.lookup (.ofVariable w) with
      | .error e => .error e
      | .ok (some bound) => unifier (.ofVariable v) bound b
      | .ok none => bindUnbound v y b
    | _ => bindUnbound v y b

/-- Unifies two items with at most the given nesting of calls. -/
def unifyWithin : Nat → Unifier
  | 0, _, _, _ => .error .endless
  | depth + 1, x, y, b =>
    match x, y with
    | .term (.const a), .term (.const c) => .ok (if a.sameSymbol c then some b else none)
    | .term (.const _), .term (.var w) => unifyVariable (unifyWithin depth) w x b
    -- a variable on the left takes whatever is on the right, plain values too
    | .term (.var v), _ => unifyVariable (unifyWithin depth) v y b
    | .term (.app _ _), .term (.var w) => unifyVariable (unifyWithin depth) w x b
    | .term (.app f ts), .term (.app g us) =>
      if f.equals g then unifyEach (unifyWithin depth) (ts.map .term) (us.map .term) b
      else .ok none
    | .term _, _ => .ok none
    | _, _ => (textOrFault x.text?).bind fun text => .error (.notTerm text)

/-- Unifies two lists of items, from left to right. -/
def unifyLists (xs ys : List Item) (b : Bindings) : Checked (Option Bindings) :=
  unifyEach (unifyWithin (nestingBound xs ys b)) xs ys b

/-- Unifies two items as terms.  The left one has to be a term. -/
def unifyTerms (x y : Item) (b : Bindings) : Checked (Option Bindings) :=
  unifyWithin (nestingBound [x] [y] b) x y b

/-- Unifies two literals: they share the predicate, and the arguments unify. -/
def unifyLiterals (l m : Literal) (b : Bindings) : Checked (Option Bindings) :=
  if l.predicate.equals m.predicate then
    unifyLists (l.args.map .term) (m.args.map .term) b
  else .ok none

/-- Unifies two terms, two literals or two sequences. -/
def unify (x y : Item) (b : Bindings) : Checked (Option Bindings) :=
  match x, y with
  | .literal l, .literal m => unifyLiterals l m b
  | .list xs, .list ys | .list xs, .tuple ys | .tuple xs, .list ys | .tuple xs, .tuple ys =>
    unifyLists xs ys b
  | .term _, .term _ => unifyTerms x y b
  | _, _ => .error (.cannotUnify x.kind y.kind)

/-! ### Operands of any kind -/

/-- The elements of an item that has a length: a list, a tuple, the characters of
a string; an object with fields has a length, but no element at a position. -/
inductive Elements where
  | items (xs : List Item)
  | fields

/-- The elements of an item; an item without a length has none. -/
def Item.elements? : Item → Option Elements
  | .list xs => some (.items xs)
  | .tuple xs => some (.items xs)
  | .raw (.str s) => some (.items (s.toList.map fun c => .raw (.str c.toString)))
  | .raw (.list vs) => some (.items (vs.map .raw))
  | .raw (.object []) => some (.items [])
  | .raw (.object _) => some .fields
  | _ => none

/-- Unifies two items as sequences; without an environment there is no answer. -/
def unifyAsSequences (x y : Item) : Option Bindings → Checked (Option Bindings)
  | none => .ok none
  | some b =>
    match x.elements?, y.elements? with
    | some (.items xs), some (.items ys) => unifyLists xs ys b
    | some (.items []), some .fields | some .fields, some (.items []) => .ok none
    | some _, some _ => .error .missingKey
    | _, _ => .error .wrongKind

/-- Unifies two items as literals; without an environment there is no answer. -/
def unifyAsLiterals (x y : Item) (b : Option Bindings) : Checked (Option Bindings) :=
  match x, y, b with
  | .literal l, .literal m, some b => unifyLiterals l m b
  | .literal _, .literal _, none => .ok none
  | _, _, _ => .error .noProperty

/-- Unifies two items as terms.  Without an environment there is no answer, and a
variable that would have to be looked up is a fault. -/
def unifyAsTerms (x y : Item) : Option Bindings → Checked (Option Bindings)
  | some b => unifyTerms x y b
  | none =>
    match x, y with
    | .term (.var v), y => if .ofVariable v == y then .ok none else .error .noProperty
    | .term _, .term (.var _) => .error .noProperty
    | .term _, _ => .ok none
    | x, _ => (textOrFault x.text?).bind fun text => .error (.notTerm text)

end HornSearch
