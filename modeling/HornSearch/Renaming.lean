/-
HornSearch/Renaming.lean

Fresh copies of rules.  A source of serials hands out rising numbers; a fresh
copy of a rule has the same variable names under serials that the source has not
handed out before and that are above every serial in the rule.

One serial is drawn for a copy and shared by all its names; a name that occurs
with several serials takes one more for each variable after the first.
-/
import HornSearch.Fault

namespace HornSearch

/-- A source of serials for fresh variables, given by the serial to hand out
next. -/
structure SerialSource where
  upcoming : Value := .int 1
  deriving Inhabited

namespace SerialSource

/-- The source that starts at a number, which must not be below one. -/
def startingAt (start : Value) : Checked SerialSource :=
  if !start.isNumber then .error .wrongKind
  else if start.less (.int 1) then
    (textOrFault start.bareText?).bind fun text => .error (.startTooLow text)
  else .ok ⟨start⟩

/-- The serial handed out for a number: a truth value counts as a whole number. -/
def serialOf : Value → Value
  | .bool b => .int b.toInt
  | v => v

/-- Hands out the next serial. -/
def draw (s : SerialSource) : Value × SerialSource :=
  (serialOf s.upcoming, ⟨(s.upcoming.successor?).getD s.upcoming⟩)

/-- Makes every later serial greater than `serial`. -/
def skipPast (s : SerialSource) (serial : Value) : Checked SerialSource :=
  if !serial.isNumber then .error .wrongKind
  else if serial.isAtLeast s.upcoming then .ok ⟨serial.successor?.getD s.upcoming⟩
  else .ok s

end SerialSource

/-- The largest of a list of serials, zero if there are none. -/
def largestSerial : List Value → Checked Value
  | [] => .ok (.int 0)
  | first :: rest =>
    rest.foldlM (fun largest serial =>
      if serial.comparable largest then .ok (if largest.less serial then serial else largest)
      else .error .wrongKind) first

/-! ### Renaming a rule -/

/-- A finite renaming of variables. -/
abbrev Renaming := List (Variable × Variable)

/-- The image of a variable; others stay. -/
def Renaming.apply (r : Renaming) (v : Variable) : Variable :=
  match r.find? (·.1 == v) with
  | some (_, w) => w
  | none => v

/-- Gives each of the variables, which come sorted, a fresh serial: the shared one
for a name met first, a newly drawn one for a name met again. -/
def freshen (shared : Value) :
    List Variable → List Value → SerialSource → Renaming × SerialSource
  | [], _, source => ([], source)
  | v :: vs, names, source =>
    if names.any v.name.alike then
      let (serial, source) := source.draw
      let (rest, source) := freshen shared vs names source
      ((v, ⟨v.name, serial⟩) :: rest, source)
    else
      let (rest, source) := freshen shared vs (v.name :: names) source
      ((v, ⟨v.name, shared⟩) :: rest, source)

namespace Rule

/-- The variables of a rule, in order. -/
def sortedVariables (r : Rule) : Checked (List Variable) :=
  if r.occurrences.all Variable.isHashable then
    match Variable.sorted? (Variable.distinct r.occurrences) with
    | some vs => .ok vs
    | none => .error .wrongKind
  else .error .wrongKind

/-- A copy of the rule whose variables are all fresh. -/
def standardizeApart (r : Rule) (source : SerialSource) : Checked (Rule × SerialSource) := do
  let vs ← r.sortedVariables
  -- skipping comes first: a drawn serial is above all that occur in the rule
  let source ← source.skipPast (← largestSerial (vs.map (·.serial)))
  let (shared, source) := source.draw
  let (images, source) := freshen shared vs [] source
  return (r.rename (Renaming.apply images), source)

end Rule

end HornSearch
