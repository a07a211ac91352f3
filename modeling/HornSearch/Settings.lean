/-
HornSearch/Settings.lean

The settings of a search and their validation.

Settings come as fields of plain values.  A number may be given as a whole number,
a truth value, a double without a fraction, or the text of a whole number; a flag
as a truth value, zero or one, or one of a few words.  All complaints are
collected, in the order of the settings; unknown fields are ignored.
-/
import HornSearch.Fault
import HornSearch.Numeral
import HornSearch.Yaml.Reader

namespace HornSearch

/-- The settings of a search. -/
structure Settings where
  /-- The greatest depth of a goal; none is no limit. -/
  maxDepth : Option Nat := none
  /-- Whether each attempt at a rule is recorded. -/
  trace : Bool := false
  /-- The first serial of fresh variables. -/
  freshStart : Nat := 1
  deriving Inhabited

namespace Settings

/-! ### Whole numbers -/

/-- The blanks that may surround the text of a number: the white space of any
script. -/
def isBlank (c : Char) : Bool :=
  let n := c.toNat
  (9 ≤ n && n ≤ 13) || (0x2000 ≤ n && n ≤ 0x200a) ||
    [0x20, 0x85, 0xa0, 0x1680, 0x2028, 0x2029, 0x202f, 0x205f, 0x3000].contains n

/-- Drops the blanks at both ends. -/
def trim (cs : List Char) : List Char :=
  ((cs.dropWhile isBlank).reverse.dropWhile isBlank).reverse

/-- Drops a plus sign, unless a minus sign follows. -/
def dropPlus? : List Char → Option (List Char)
  | '+' :: '-' :: _ => none
  | '+' :: cs => some cs
  | cs => some cs

/-- Drops the zeros and underscores that follow `last`, the zero or underscore in
front, and `last` itself if another digit comes then. -/
def dropZeros? (last : Char) : List Char → Option (List Char)
  | [] => some [last]
  | c :: cs =>
    if c == '0' || c == '_' then dropZeros? c cs
    else if c.isDigit then some (c :: cs)
    else if c == '.' then some (last :: c :: cs)
    else none

/-- Drops leading zeros.  Only a digit or a minus sign may be in front. -/
def dropLeadingZeros? : List Char → Option (List Char)
  | [] => none
  | c :: cs =>
    if c == '0' then dropZeros? c cs
    else if c.isDigit || c == '-' then some (c :: cs)
    else none

/-- Drops a point with zeros after it, at least one. -/
def dropFraction (cs : List Char) : List Char :=
  let fraction := (cs.dropWhile (· != '.')).drop 1
  if !fraction.isEmpty && fraction.all (· == '0') then cs.takeWhile (· != '.') else cs

/-- Whether two underscores stand side by side. -/
def hasDoubleUnderscore : List Char → Bool
  | '_' :: '_' :: _ => true
  | _ :: cs => hasDoubleUnderscore cs
  | [] => false

/-- Drops the underscores, which stand alone and between other characters. -/
def dropUnderscores? (cs : List Char) : Option (List Char) :=
  if cs.head? == some '_' || cs.getLast? == some '_' || hasDoubleUnderscore cs then none
  else some (cs.filter (· != '_'))

/-- The whole number of digits after an optional minus sign. -/
def numberOfDigits? (cs : List Char) : Option Int :=
  let (negative, digits) := match cs with
    | '-' :: digits => (true, digits)
    | digits => (false, digits)
  if !digits.isEmpty && digits.all Char.isDigit then
    some (Numeral.signed negative 10 digits)
  else none

/-- The whole number of a text without blanks around it: digits with an optional
sign, single underscores between them, and a fraction of zeros only.  Among leading
zeros underscores may stand as they like. -/
def numberOfText? (cs : List Char) : Option Int := do
  numberOfDigits? (← dropUnderscores? (dropFraction (← dropLeadingZeros? (← dropPlus? cs))))

/-- The whole number of an exact number without a fraction. -/
def wholeOfDyadic? : Dyadic → Option Int
  | .zero => some 0
  | .ofOdd n k _ => if k ≤ 0 then some (n * Nat.pow 2 (-k).toNat) else none

/-- The bound on the whole numbers that are taken from doubles. -/
def wholeBound : Int := Int.pow 2 63

/-- The whole number of a double. -/
def numberOfDouble (x : Double) : Except Complaint Int :=
  match x.quantity? with
  | some (.exact x) =>
    match wholeOfDyadic? x with
    | some n => if n.natAbs < wholeBound.natAbs then .ok n else .error .tooLarge
    | none => .error .fractional
  | _ => .error .notFinite

/-- The whole number of a value. -/
def number : Value → Except Complaint Int
  | .bool b => .ok b.toInt
  | .int n => .ok n
  | .float x => numberOfDouble x
  | .str s =>
    let cs := trim s.toList
    if Numeral.mostDigits < (String.ofList cs).utf8ByteSize then .error .tooLarge else
    match numberOfText? cs with
    | some n => .ok n
    | none => .error .unreadableNumber
  | _ => .error .notNumber

/-- The positive whole number of a value. -/
def positive (v : Value) : Except Complaint Nat :=
  match number v with
  | .ok n => if 1 ≤ n then .ok n.toNat else .error .tooSmall
  | .error c => .error c

/-- A positive number, or null for none. -/
def positiveOrNull : Value → Except Complaint (Option Nat)
  | .null => .ok none
  | v => (positive v).map some

/-! ### Flags -/

/-- The words for a flag that is set. -/
def trueWords : List String := ["1", "t", "true", "y", "yes", "on"]

/-- The words for a flag that is not set. -/
def falseWords : List String := ["0", "f", "false", "n", "no", "off"]

/-- The truth value of a whole number. -/
def flagOfInt (n : Int) : Except Complaint Bool :=
  if n = 0 then .ok false else if n = 1 then .ok true else .error .unreadableFlag

/-- The truth value of a value. -/
def flag : Value → Except Complaint Bool
  | .bool b => .ok b
  | .int n => if -wholeBound ≤ n ∧ n < wholeBound then flagOfInt n else .error .notFlag
  | .float x =>
    match numberOfDouble x with
    | .ok n => flagOfInt n
    | .error _ => .error .notFlag
  | .str s =>
    let word := s.map Char.toLower
    if trueWords.contains word then .ok true
    else if falseWords.contains word then .ok false
    else .error .unreadableFlag
  | _ => .error .notFlag

/-! ### Validation -/

/-- A setting of a list of fields: its default if it is absent, else what `read`
makes of it. -/
def setting {α : Type} (fields : List (Value × Value)) (name : String) (default : α)
    (read : Value → Except Complaint α) : Except (Option String × Complaint) α :=
  match Value.field? name fields with
  | none => .ok default
  | some v =>
    match read v with
    | .ok a => .ok a
    | .error c => .error (some name, c)

/-- The complaint of a setting, if there is one. -/
def complaint {α : Type} :
    Except (Option String × Complaint) α → List (Option String × Complaint)
  | .ok _ => []
  | .error c => [c]

/-- The settings of a list of fields. -/
def ofFields (fields : List (Value × Value)) : Checked Settings :=
  let maxDepth := setting fields "max_depth" none positiveOrNull
  let trace := setting fields "trace" false flag
  let freshStart := setting fields "fresh_start" 1 positive
  match maxDepth, trace, freshStart with
  | .ok maxDepth, .ok trace, .ok freshStart => .ok ⟨maxDepth, trace, freshStart⟩
  | _, _, _ =>
    .error (.refusedSettings (complaint maxDepth ++ complaint trace ++ complaint freshStart))

/-- The settings of a document.  They may stand under a field of their own, and an
empty value of any kind gives the defaults. -/
def ofDocument (v : Value) : Checked Settings :=
  let fieldsOf : Value → Checked Settings
    | .object fields => ofFields fields
    | v => if v.isTruthy then .error (.refusedSettings [(none, .notObject)]) else ofFields []
  match v with
  | .object fields => fieldsOf ((Value.field? "resolver" fields).getD v)
  | v => fieldsOf v

/-- The settings of a YAML file, given by its text if there is one. -/
def ofYaml (text : Option String) : Checked Settings := do
  ofDocument (← valueOfText Yaml.read .yamlSyntax text)

end Settings

end HornSearch
