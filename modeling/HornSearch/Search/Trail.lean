/-
HornSearch/Search/Trail.lean

What a search leaves behind whatever becomes of it: the source of serials as it
stands, and the events so far.

A computation of the search takes a trail and ends in one of three ways, proved,
failed or stopped by a fault, always with a trail.  Failure is ordinary: another
rule may be tried after it.  A fault ends the whole search.

Events are recorded if the trail asks for that.  Each is worded as it is recorded:
one about a literal that is no string stops a search that is recorded and no other.
One about a number that is too long to be written is kept without words.
-/
import HornSearch.Renaming
import HornSearch.Search.Event

namespace HornSearch

/-- The serials drawn so far, by the next one, and the events, latest first, if they
are recorded. -/
structure Trail where
  source : SerialSource
  recording : Bool := false
  events : List Event := []

/-- How a computation of the search ends. -/
inductive Outcome (α : Type) where
  | proved (a : α)
  | failed
  | stopped (fault : Fault)

/-- A computation of the search. -/
def Search (α : Type) : Type := Trail → Outcome α × Trail

namespace Search

/-- The computation that is done at once. -/
def pure {α : Type} (a : α) : Search α := fun trail => (.proved a, trail)

/-- The computation that fails. -/
def fail {α : Type} : Search α := fun trail => (.failed, trail)

/-- The computation that a fault stops. -/
def stop {α : Type} (fault : Fault) : Search α := fun trail => (.stopped fault, trail)

/-- One computation after another. -/
def bind {α β : Type} (s : Search α) (next : α → Search β) : Search β := fun trail =>
  match s trail with
  | (.proved a, trail) => next a trail
  | (.failed, trail) => (.failed, trail)
  | (.stopped fault, trail) => (.stopped fault, trail)

instance : Monad Search where
  pure := Search.pure
  bind := Search.bind

/-- A computation, and another one if it fails. -/
def orElse {α : Type} (s other : Search α) : Search α := fun trail =>
  match s trail with
  | (.failed, trail) => other trail
  | ended => ended

/-- The result of an operation that can fail with a fault. -/
def ofChecked {α : Type} : Checked α → Search α
  | .ok a => Search.pure a
  | .error fault => stop fault

/-- Records an event, if events are recorded. -/
def record (event : Event) : Search Unit := fun trail =>
  if !trail.recording then (.proved (), trail)
  else match event.wording with
    | .error .notString => (.stopped .wrongKind, trail)
    | _ => (.proved (), { trail with events := event :: trail.events })

/-- A fresh copy of a rule. -/
def freshCopy (rule : Rule) : Search Rule := fun trail =>
  match rule.standardizeApart trail.source with
  | .ok (copy, source) => (.proved copy, { trail with source })
  | .error fault => (.stopped fault, trail)

/-- Makes every later serial greater than `serial`. -/
def skipPast (serial : Value) : Search Unit := fun trail =>
  match trail.source.skipPast serial with
  | .ok source => (.proved (), { trail with source })
  | .error fault => (.stopped fault, trail)

end Search

end HornSearch
