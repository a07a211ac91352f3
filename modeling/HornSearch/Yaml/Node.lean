/-
HornSearch/Yaml/Node.lean

The nodes of a YAML document, as the grammar gives them, and the values they stand
for.

Nothing is said by the grammar about what a plain scalar means or which nodes may be
keys, so a text can be a document and still have no value: a numeral may be without
digits, and a sequence or a mapping may not be a key.  Of several such flaws the one
nearest to the root of the document counts, and the first of those on one level.
-/
import HornSearch.Yaml.Scalar

namespace HornSearch.Yaml

/-- A node of a document. -/
inductive Node where
  | plain (text : List Char)
  | quoted (text : List Char)
  | sequence (elements : List Node)
  | mapping (fields : List (Node × Node))
  deriving Inhabited

namespace Node

/-! ### Flaws -/

/-- Puts the levels of two trees beside each other. -/
def beside {α : Type} : List (List α) → List (List α) → List (List α)
  | [], levels => levels
  | levels, [] => levels
  | xs :: levels, ys :: others => (xs ++ ys) :: beside levels others

/-- The flaw of a scalar, on a level of its own. -/
def scalarFlaw : Reading Value → List (List ReadError)
  | .ok _ => []
  | .error e => [[e]]

/-- The flaw of a node in the place of a key. -/
def keyFlaw : Node → List (List ReadError)
  | .plain cs => scalarFlaw (resolveKey cs)
  | .quoted _ => []
  | .sequence _ | .mapping _ => [[.ungrammatical]]

mutual

/-- The flaws of a node and of those below it, level by level. -/
def flaws : Node → List (List ReadError)
  | .plain cs => scalarFlaw (resolve cs)
  | .quoted _ => []
  | .sequence ns => [] :: elementFlaws ns
  | .mapping fs => [] :: fieldFlaws fs

/-- The flaws of the elements of a sequence. -/
def elementFlaws : List Node → List (List ReadError)
  | [] => []
  | n :: ns => beside (flaws n) (elementFlaws ns)

/-- The flaws of the fields of a mapping. -/
def fieldFlaws : List (Node × Node) → List (List ReadError)
  | [] => []
  | (key, n) :: fs => beside (keyFlaw key) (beside (flaws n) (fieldFlaws fs))

end

/-! ### Values -/

/-- The value of a scalar without flaws. -/
def scalarValue : Reading Value → Value
  | .ok v => v
  | .error _ => .null

/-- The value of a node in the place of a key. -/
def keyValue : Node → Value
  | .plain cs => scalarValue (resolveKey cs)
  | .quoted cs => .str (String.ofList cs)
  | .sequence _ | .mapping _ => .null

mutual

/-- The value of a node without flaws. -/
def flawlessValue : Node → Value
  | .plain cs => scalarValue (resolve cs)
  | .quoted cs => .str (String.ofList cs)
  | .sequence ns => .list (elementValues ns)
  | .mapping fs => Value.ofFields (fieldValues fs)

/-- The values of the elements of a sequence. -/
def elementValues : List Node → List Value
  | [] => []
  | n :: ns => flawlessValue n :: elementValues ns

/-- The keys and values of the fields of a mapping. -/
def fieldValues : List (Node × Node) → List (Value × Value)
  | [] => []
  | (key, n) :: fs => (keyValue key, flawlessValue n) :: fieldValues fs

end

/-- The value of a node. -/
def value (n : Node) : Reading Value :=
  match n.flaws.flatten with
  | [] => .ok n.flawlessValue
  | e :: _ => .error e

end Node

end HornSearch.Yaml
