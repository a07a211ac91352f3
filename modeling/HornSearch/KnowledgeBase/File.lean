/-
HornSearch/KnowledgeBase/File.lean

Knowledge bases as texts: their documents in some form of text (`TextFormat`).  A text
that is not there is a missing file.

Two forms are at hand, JSON and YAML.  A constant that holds a piece of syntax has no
form in either, so a knowledge base with one cannot be written, nor can one with a whole
number that is too long.  How YAML is written and read is left to others by those who
use it; the form here goes as far as plain documents without anchors need it.
-/
import HornSearch.Json.Reader
import HornSearch.Json.Writer
import HornSearch.KnowledgeBase.Document
import HornSearch.Yaml.Reader
import HornSearch.Yaml.Writer

namespace HornSearch

/-- A way to keep values as texts: how a value is written and how a text is read. -/
structure TextFormat where
  write : Value → Checked String
  read : String → Checked Value

namespace TextFormat

/-- The form in which `written?` is what is written for the values that have a text in it. -/
def ofParts (written? : Value → Option String) (unwritable : Fault)
    (read : String → Reading Value) (badSyntax : Fault) : TextFormat where
  write v :=
    match written? v with
    | some text => textOrFault (v.shownAs text)
    | none => .error unwritable
  read text := valueOfText read badSyntax (some text)

/-- Values as JSON. -/
def json : TextFormat := ofParts Json.write? .wrongKind Json.read .jsonSyntax

/-- Values as YAML. -/
def yaml : TextFormat := ofParts Yaml.write? .yamlSyntax Yaml.read .yamlSyntax

end TextFormat

namespace KnowledgeBase

/-- The text of a knowledge base. -/
def save (kb : KnowledgeBase) (format : TextFormat) : Checked String :=
  format.write kb.toDocument

/-- The knowledge base of a text. -/
def load (format : TextFormat) : Option String → Checked KnowledgeBase
  | none => .error .noSuchFile
  | some text => do ofDocument (← format.read text)

/-- The JSON text of a knowledge base. -/
def toJson (kb : KnowledgeBase) : Checked String := kb.save .json

/-- The YAML text of a knowledge base. -/
def toYaml (kb : KnowledgeBase) : Checked String := kb.save .yaml

/-- The knowledge base of a JSON text. -/
def ofJson (text : Option String) : Checked KnowledgeBase := load .json text

/-- The knowledge base of a YAML text. -/
def ofYaml (text : Option String) : Checked KnowledgeBase := load .yaml text

/-- The forms in which a knowledge base can be kept: its document, or a text of that. -/
inductive Format where
  | document
  | text (format : TextFormat)

namespace Format

/-- As JSON. -/
def json : Format := .text .json

/-- As YAML. -/
def yaml : Format := .text .yaml

end Format

/-- The knowledge base that is read back after it was kept in a form. -/
def reload (kb : KnowledgeBase) : Format → Checked KnowledgeBase
  | .document => ofDocument kb.toDocument
  | .text format => do load format (some (← kb.save format))

end KnowledgeBase

end HornSearch
