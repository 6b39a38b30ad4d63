import BlockDiagram.Document.Decoding
import BlockDiagram.Document.Encoding
import BlockDiagram.Document.Lowering
import BlockDiagram.Document.Validity
import BlockDiagram.Json.Reader
import BlockDiagram.Json.Writer
import BlockDiagram.Scalar.Double
import BlockDiagram.Yaml.Reader
import BlockDiagram.Yaml.Writer
/-! Storage: documents as texts, in a format that the name of a file tells. -/

namespace BlockDiagram

/-- The notations a document can be written in. -/
inductive Format where
  | json | yaml
  deriving DecidableEq, Repr

inductive StorageError where
  /-- The file cannot be read. -/
  | io
  /-- The text does not give a document. -/
  | text (format : Format)
  | validation (e : DocumentError Float)
  | model (e : ModelError Float)

namespace StorageError

/-- What is said of a document that could be read. -/
def message? : StorageError → Option String
  | io | text _ => none
  | validation e => some s!"Validation error: {e.message}"
  | model e => some s!"Model error: {e.message}"

end StorageError

namespace Format

/-- Lists and maps may be nested this deep. -/
def nestingLimit : Format → Nat
  | json => 127
  | yaml => 128

/-- Whether a record may be written as the list of its values. -/
def positional : Format → Bool
  | json => true
  | yaml => false

def node? : Format → String → Option Node
  | json, text => Json.read? text
  | yaml, text => Yaml.read? text

/-- The extension at the end of a path: what follows the last point of the file's name, unless that
point comes first. -/
def extension? (path : String) : Option String :=
  let reversed := path.toList.reverse.takeWhile (· ≠ '/')
  match reversed.dropWhile (· ≠ '.') with
  | [] | ['.'] => none
  | _ => some (String.ofList (reversed.takeWhile (· ≠ '.')).reverse)

/-- Files are JSON if their extension says so, and YAML otherwise. -/
def ofFileName (path : String) : Format :=
  if extension? path = some "json" then json else yaml

def parse (format : Format) (text : String) : Except StorageError (Document Float) :=
  let doc? := do
    let n ← format.node? text
    guard (Document.nestsWithin format.positional format.nestingLimit n)
    Document.ofNode? format.positional n
  match doc? with
  | some doc => .ok doc
  | none => .error (.text format)

def load (format : Format) (text : String) : Except StorageError (Document Float) := do
  let doc ← format.parse text
  match doc.check with
  | .ok _ => return doc
  | .error e => throw (.validation e)

def write : Format → Document Float → String
  | json, doc => Json.write doc.datum
  | yaml, doc => Yaml.write doc.datum

def save (format : Format) (doc : Document Float) : Except (DocumentError Float) String := do
  doc.check
  return format.write doc

end Format

namespace Document

def loadedDraft (doc : Document Float) : Except StorageError (Draft Float) :=
  doc.draft.mapError .model

def loadedModel (doc : Document Float) : Except StorageError (Model Float) :=
  doc.build.mapError .model

end Document

end BlockDiagram
