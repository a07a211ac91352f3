/-
HornSearch/Yaml/Flow.lean

Reads the flow nodes of YAML: sequences and mappings in brackets, and the scalars
in them, over any number of lines.  An element with a colon is a mapping of one
field, and a field without one has the empty scalar as its value.

The readers count down the nesting of their calls; every call leaves a character
behind, so the length of the text is enough.
-/
import HornSearch.Yaml.Node
import HornSearch.Yaml.Quoted

namespace HornSearch.Yaml

/-- Drops the blanks at the end. -/
def trimEnd (cs : List Char) : List Char := (cs.reverse.dropWhile (· == ' ')).reverse

/-- The characters that end a plain scalar in a flow node. -/
def flowMarks : List Char := [',', '[', ']', '\x7b', '\x7d']

/-- Drops blanks, line ends and comments. -/
def skipFlow : Nat → List Char → List Char
  | 0, cs => cs
  | fuel + 1, cs =>
    match cs.dropWhile fun c => c == ' ' || c == '\n' || c == '\t' with
    | '#' :: rest => skipFlow fuel (rest.dropWhile (· != '\n'))
    | rest => rest

/-- Whether a colon in front of `rest` ends a plain scalar in a flow node. -/
def colonEnds (rest : List Char) : Bool :=
  match rest with
  | [] => true
  | c :: _ => c == ' ' || c == '\n' || c == '\t' || flowMarks.contains c

/-- Whether a plain scalar in a flow node ends in front of `cs`. -/
def endsFlowPlain : List Char → Bool
  | [] => true
  | c :: rest =>
    flowMarks.contains c || c == '?' || (c == ':' && colonEnds rest) ||
      (c == ' ' && rest.head? == some '#')

/-- Splits off the plain scalar in front.  A line end in it stands for a blank, or
for as many line feeds as empty lines follow it. -/
def spanFlowPlain : Nat → List Char → List Char × List Char
  | 0, cs => ([], cs)
  | _ + 1, [] => ([], [])
  | fuel + 1, c :: rest =>
    if endsFlowPlain (c :: rest) then ([], c :: rest)
    else
      match foldedBreak? (c :: rest) with
      | some (text, after) =>
        if endsFlowPlain after || after.head? == some '#' then ([], c :: rest)
        else
          let (cs, rest) := spanFlowPlain fuel after
          (text ++ cs, rest)
      | none =>
        let (cs, after) := spanFlowPlain fuel rest
        (c :: cs, after)

/-- Whether a plain scalar may start with `cs` in a flow node. -/
def startsFlowPlain : List Char → Bool
  | [] => false
  | c :: rest =>
    !indicators.contains c && c != '?' && c != ':' &&
      !(c == '-' && rest.head?.elim true fun d => d == ' ' || d == '\n' || d == '\t')

mutual

/-- The flow node in front, which no blank precedes. -/
def readFlow : Nat → List Char → Option (Node × List Char)
  | 0, _ => none
  | fuel + 1, '[' :: rest => do
    let (ns, rest) ← readFlowElements fuel (skipFlow fuel rest)
    return (.sequence ns, rest)
  | fuel + 1, '\x7b' :: rest => do
    let (fields, rest) ← readFlowFields fuel (skipFlow fuel rest)
    return (.mapping fields, rest)
  | fuel + 1, cs =>
    match readQuoted? cs with
    | some quoted => quoted.map fun r => (.quoted r.1, r.2)
    | none =>
      if startsFlowPlain cs then
        let (text, rest) := spanFlowPlain fuel cs
        some (.plain (trimEnd text), rest)
      else none

/-- The node after the colon of a key; nothing is the empty scalar. -/
def readFlowValue : Nat → List Char → Option (Node × List Char)
  | 0, _ => none
  | fuel + 1, cs =>
    match skipFlow fuel cs with
    | ',' :: rest => some (.plain [], ',' :: rest)
    | ']' :: rest => some (.plain [], ']' :: rest)
    | '\x7d' :: rest => some (.plain [], '\x7d' :: rest)
    | rest => readFlow fuel rest

/-- The elements of a flow sequence up to its closing bracket. -/
def readFlowElements : Nat → List Char → Option (List Node × List Char)
  | 0, _ => none
  | _ + 1, [] => none
  | _ + 1, ']' :: rest => some ([], rest)
  | fuel + 1, cs => do
    let (n, rest) ← readFlow fuel cs
    let (n, rest) ← match skipFlow fuel rest with
      | ':' :: rest =>
        (readFlowValue fuel rest).map fun r => (Node.mapping [(n, r.1)], r.2)
      | rest => some (n, rest)
    match skipFlow fuel rest with
    | ']' :: rest => return ([n], rest)
    | ',' :: rest =>
      let (ns, rest) ← readFlowElements fuel (skipFlow fuel rest)
      return (n :: ns, rest)
    | _ => none

/-- The fields of a flow mapping up to its closing brace. -/
def readFlowFields : Nat → List Char → Option (List (Node × Node) × List Char)
  | 0, _ => none
  | _ + 1, [] => none
  | _ + 1, '\x7d' :: rest => some ([], rest)
  | fuel + 1, cs => do
    let (key, rest) ← readFlow fuel cs
    let (n, rest) ← match skipFlow fuel rest with
      | ':' :: rest => readFlowValue fuel rest
      | rest => some (.plain [], rest)
    match skipFlow fuel rest with
    | '\x7d' :: rest => return ([(key, n)], rest)
    | ',' :: rest =>
      let (fields, rest) ← readFlowFields fuel (skipFlow fuel rest)
      return ((key, n) :: fields, rest)
    | _ => none

end

end HornSearch.Yaml
