/-
HornSearch/Yaml/Reader.lean

Reads a YAML document: comments, block mappings and sequences, flow nodes, and plain
and quoted scalars.

The document is first cut into lines with their indentation.  A block node takes the
lines that belong to it and leaves the rest; an element or a field whose node starts
on its own line is read as a line that starts further in.  A flow node or a scalar
may run over several lines, and then takes blank lines and comments with it as it
needs; between nodes they are dropped.

The readers of blocks count down the nesting of their calls; every call leaves a
character or a line behind, so a multiple of the length of the text is enough.
-/
import HornSearch.Yaml.Flow

namespace HornSearch.Yaml

/-! ### Lines -/

/-- A line of a document. -/
structure Line where
  indent : Nat
  text : List Char
  deriving Inhabited

/-- Whether nothing but a comment is left on a line. -/
def isRestBlank (cs : List Char) : Bool :=
  match cs.dropWhile (· == ' ') with
  | [] => true
  | c :: _ => c == '#'

/-- The characters with every line break as a line feed. -/
def unifyBreaks : List Char → List Char
  | '\r' :: '\n' :: cs => '\n' :: unifyBreaks cs
  | '\r' :: cs => '\n' :: unifyBreaks cs
  | c :: cs => c :: unifyBreaks cs
  | [] => []

/-- The parts between line feeds. -/
def splitLines : List Char → List (List Char)
  | [] => [[]]
  | c :: cs =>
    match splitLines cs with
    | line :: lines => if c == '\n' then [] :: line :: lines else (c :: line) :: lines
    | [] => [[c]]

namespace Line

/-- The line of a text. -/
def ofText (cs : List Char) : Line :=
  ⟨(cs.takeWhile (· == ' ')).length, cs.dropWhile (· == ' ')⟩

/-- Whether the line is blank or a comment. -/
def isBlank (l : Line) : Bool := isRestBlank l.text

/-- Whether the line is a mark between documents. -/
def isMark (mark : List Char) (l : Line) : Bool :=
  l.indent == 0 && mark.isPrefixOf l.text && isRestBlank (l.text.drop mark.length) &&
    (l.text.drop mark.length).head? != some '#'

/-- The lines of a document, after its start mark if it has one. -/
def ofDocument (text : String) : List Line :=
  let lines := ((splitLines (unifyBreaks text.toList)).map ofText).dropWhile isBlank
  match lines with
  | line :: rest => if line.isMark ['-', '-', '-'] then rest.dropWhile isBlank else line :: rest
  | [] => []

end Line

/-- Whether the character may be in a document. -/
def isPrintable (c : Char) : Bool :=
  let n := c.toNat
  n == 9 || n == 10 || n == 13 || (32 ≤ n && n ≤ 126) || n == 0x85 ||
    (0xa0 ≤ n && n != 0xfffe && n != 0xffff)

/-! ### Scalars of blocks -/

/-- Whether the text starts with an indicator that stands alone. -/
def startsWith (indicator : Char) : List Char → Bool
  | [c] => c == indicator
  | c :: ' ' :: _ => c == indicator
  | _ => false

/-- Whether a line is an element of a block sequence. -/
def isElement (cs : List Char) : Bool := startsWith '-' cs

/-- Splits a text at the first colon that ends a plain key. -/
def splitPlainKey : List Char → Option (List Char × List Char)
  | [] => none
  | c :: rest =>
    if c == ':' && (rest.isEmpty || rest.head? == some ' ') then some ([], rest)
    else if c == ' ' && rest.head? == some '#' then none
    else (splitPlainKey rest).map fun r => (c :: r.1, r.2)

/-- Whether a plain scalar may start with `cs` in a block. -/
def startsBlockPlain (cs : List Char) : Bool :=
  match cs with
  | [] => true
  | c :: _ =>
    !indicators.contains c && !startsWith '-' cs && !startsWith '?' cs && !startsWith ':' cs

/-- The key of a field and the text after its colon, if the line starts one. -/
def splitField? (cs : List Char) : Option (Node × List Char) :=
  match readQuoted? cs with
  | some (some (name, rest)) =>
    match rest.dropWhile (· == ' ') with
    | ':' :: rest =>
      if rest.isEmpty || rest.head? == some ' ' then some (.quoted name, rest) else none
    | _ => none
  | some none => none
  | none =>
    if startsBlockPlain cs then (splitPlainKey cs).map fun r => (.plain (trimEnd r.1), r.2)
    else none

/-- The text of a plain scalar up to a comment, and whether there is one. -/
def cutComment : List Char → List Char × Bool
  | [] => ([], false)
  | c :: rest =>
    if c == ' ' && rest.head? == some '#' then ([], true)
    else
      let (cs, cut) := cutComment rest
      (c :: cs, cut)

/-- The plain scalar `text` with the lines further in than `parent` that continue it.
`empty` counts the empty lines since its last line, and `after` are the lines after
it if none continues it. -/
def continuePlain (parent : Int) (after : List Line) (empty : Nat) (text : List Char) :
    List Line → Option (List Char × List Line)
  | [] => some (text, after)
  | line :: rest =>
    if line.text.isEmpty then continuePlain parent after (empty + 1) text rest
    else if parent < line.indent && !line.isBlank then
      if (splitPlainKey line.text).isSome then none
      else
        let (more, cut) := cutComment line.text
        let gap := if empty = 0 then [' '] else List.replicate empty '\n'
        let text := text ++ gap ++ trimEnd more
        if cut then some (text, rest) else continuePlain parent rest 0 text rest
    else some (text, after)

/-- The plain scalar that starts with `cs` on a line, in a block that starts at the
column `parent`. -/
def readPlain (parent : Int) (cs : List Char) (lines : List Line) :
    Option (List Char × List Line) :=
  if (splitPlainKey cs).isSome then none
  else
    let (text, cut) := cutComment cs
    if cut then some (trimEnd text, lines) else continuePlain parent lines 0 (trimEnd text) lines

/-- The lines that are left after a node that ends in front of `rest`, where nothing
but a comment may follow it on its line. -/
def linesAfter? (lines : List Line) (rest : List Char) : Option (List Line) :=
  if isRestBlank (rest.takeWhile (· != '\n')) then
    some (lines.drop (lines.length - rest.count '\n'))
  else none

/-- The scalar or flow node that starts with `cs` on a line, in a block that starts
at the column `parent`. -/
def readInline (parent : Int) (cs : List Char) (lines : List Line) :
    Option (Node × List Line) :=
  if startsBlockPlain cs then (readPlain parent cs lines).map fun r => (.plain r.1, r.2)
  else
    -- a node in quotes or brackets may end on a later line
    let whole := cs ++ lines.flatMap fun line => '\n' :: line.text
    match readQuoted? whole with
    | some quoted => do
      let (text, rest) ← quoted
      return (.quoted text, ← linesAfter? lines rest)
    | none => do
      let (n, rest) ← readFlow (whole.length + 1) whole
      if cs.head? == some '[' || cs.head? == some '\x7b' then
        return (n, ← linesAfter? lines rest)
      else none

/-! ### Blocks -/

mutual

/-- The node that starts with the first line that is not blank, in a block that
starts at the column `parent`. -/
def readBlock : Nat → Int → List Line → Option (Node × List Line)
  | 0, _, _ => none
  | fuel + 1, parent, lines =>
    match lines.dropWhile Line.isBlank with
    | [] => none
    | line :: lines =>
      if isElement line.text then do
        let (ns, rest) ← readElements fuel line.indent (line :: lines)
        return (.sequence ns, rest)
      else if startsWith '?' line.text || (splitField? line.text).isSome then do
        let (fields, rest) ← readFields fuel line.indent (line :: lines)
        return (.mapping fields, rest)
      else readInline parent line.text lines
termination_by structural fuel => fuel

/-- The node on the lines below a mark that nothing follows: further in than
`indent`, or a sequence at that indentation where `flush` allows it.  Without
such lines it is the empty scalar. -/
def readBelow : Nat → Bool → Nat → List Line → Option (Node × List Line)
  | 0, _, _, _ => none
  | fuel + 1, flush, indent, lines =>
    match lines.dropWhile Line.isBlank with
    | [] => some (.plain [], [])
    | line :: lines =>
      if indent < line.indent then readBlock fuel indent (line :: lines)
      else if flush && line.indent == indent && isElement line.text then
        (readElements fuel indent (line :: lines)).map fun r => (.sequence r.1, r.2)
      else some (.plain [], line :: lines)
termination_by structural fuel => fuel

/-- The node after an indicator that stands alone, of which `text` is left on the
line: it is read as a line of its own, further in. -/
def readAfter : Nat → Bool → Nat → List Char → List Line → Option (Node × List Line)
  | 0, _, _, _, _ => none
  | fuel + 1, flush, indent, text, lines =>
    if isRestBlank text then readBelow fuel flush indent lines
    else
      let inner := text.dropWhile (· == ' ')
      readBlock fuel indent (⟨indent + 1 + (text.length - inner.length), inner⟩ :: lines)
termination_by structural fuel => fuel

/-- The elements of a block sequence at an indentation. -/
def readElements : Nat → Nat → List Line → Option (List Node × List Line)
  | 0, _, _ => none
  | fuel + 1, indent, lines =>
    match lines.dropWhile Line.isBlank with
    | [] => some ([], [])
    | line :: lines =>
      if line.indent == indent && isElement line.text then do
        let (n, rest) ← readAfter fuel false indent (line.text.drop 1) lines
        let (ns, rest) ← readElements fuel indent rest
        return (n :: ns, rest)
      else some ([], line :: lines)
termination_by structural fuel => fuel

/-- The fields of a block mapping at an indentation. -/
def readFields : Nat → Nat → List Line → Option (List (Node × Node) × List Line)
  | 0, _, _ => none
  | fuel + 1, indent, lines =>
    match lines.dropWhile Line.isBlank with
    | [] => some ([], [])
    | line :: lines =>
      if line.indent != indent || isElement line.text then some ([], line :: lines)
      else do
        let (field, rest) ← if startsWith '?' line.text then
            readMarkedField fuel indent (line.text.drop 1) lines
          else readField fuel indent line.text lines
        let (fields, rest) ← readFields fuel indent rest
        return (field :: fields, rest)
termination_by structural fuel => fuel

/-- The field that starts with its key on a line. -/
def readField : Nat → Nat → List Char → List Line → Option ((Node × Node) × List Line)
  | 0, _, _, _ => none
  | fuel + 1, indent, text, lines => do
    let (key, text) ← splitField? text
    let (n, rest) ← if isRestBlank text then readBelow fuel true indent lines
      else readInline indent (text.dropWhile (· == ' ')) lines
    return ((key, n), rest)
termination_by structural fuel => fuel

/-- The field whose key and value have marks of their own, after the mark of the key. -/
def readMarkedField : Nat → Nat → List Char → List Line → Option ((Node × Node) × List Line)
  | 0, _, _, _ => none
  | fuel + 1, indent, text, lines => do
    let (key, rest) ← readAfter fuel true indent text lines
    match rest.dropWhile Line.isBlank with
    | line :: lines =>
      if line.indent == indent && startsWith ':' line.text then
        let (n, rest) ← readAfter fuel true indent (line.text.drop 1) lines
        return ((key, n), rest)
      else return ((key, .plain []), line :: lines)
    | [] => return ((key, .plain []), [])
termination_by structural fuel => fuel

end

/-- Whether nothing but the end of the document is left. -/
def isEnd : List Line → Bool
  | [] => true
  | line :: lines =>
    if line.isBlank then isEnd lines else line.isMark ['.', '.', '.'] && lines.all Line.isBlank

/-- The root node of a YAML document; an empty document is the empty scalar. -/
def readRoot (text : String) : Option Node :=
  if !text.toList.all isPrintable then none
  else
    let lines := Line.ofDocument text
    if isEnd lines then some (.plain [])
    else do
      let (n, rest) ← readBlock (8 * text.length + 8) (-1) lines
      if isEnd rest then return n else none

/-- The value of a YAML document. -/
def read (text : String) : Reading Value := do (← .ofOption (readRoot text)).value

end HornSearch.Yaml
