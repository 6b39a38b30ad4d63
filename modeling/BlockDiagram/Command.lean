import BlockDiagram.Inspection
import BlockDiagram.Schedule
import BlockDiagram.Storage
/-! Commands: what can be asked of the file of a model, and how a request fails. -/

namespace BlockDiagram

inductive Command where
  /-- Checks that the model can be run. -/
  | validate (path : String)
  /-- Lists the blocks in the order of their execution. -/
  | order (path : String)
  /-- Runs one cycle on the inputs that are assigned, one after the other. -/
  | evaluate (path : String) (assignments : List String) (json : Bool)
  /-- Lists signals, blocks and tables. -/
  | describe (path : String)
  deriving DecidableEq, Repr

inductive CommandError where
  | storage (e : StorageError)
  | model (e : ModelError Float)
  /-- An assignment that is not a name and a number. -/
  | assignment (text : String)

namespace Command

def path : Command → String
  | validate path | order path | evaluate path _ _ | describe path => path

end Command

def Arity.inspection : Arity → Inspection
  | exactly k => .call "Exactly" [.natural k]
  | atLeast k => .call "AtLeast" [.natural k]
  | between lo hi => .call "Between" [.natural lo, .natural hi]

/-- The parts of a failure, under the names by which they are reported. -/
def ModelError.inspection (e : ModelError Float) : Inspection :=
  match e with
  | nonFinite cause => .call e.kind
      [.record "NonFinite"
        [("what", .text cause.what), ("value", .plain (Scalar.text cause.value))]]
  | unresolved block varId => .record e.kind [("block", .text block), ("var_id", .text varId)]
  | unboundSlot block slot => .record e.kind [("block", .text block), ("port", .natural slot)]
  | arity block tag expected actual => .record e.kind
      [("block", .text block), ("tag", .text tag), ("expected", expected.inspection),
       ("actual", .natural actual)]
  | loop blocks => .record e.kind
      [("stuck", .natural blocks.length), ("blocks", .list (blocks.map Inspection.text))]
  | missingBreakpoints id | missingTable id | emptyBreakpoints id =>
    .record e.kind [("id", .text id)]
  | decreasing id index => .record e.kind [("id", .text id), ("index", .natural index)]
  | tableShape id expected actual => .record e.kind
      [("id", .text id), ("expected", .natural expected), ("actual", .natural actual)]
  | duplicateVariable varId => .record e.kind [("var_id", .text varId)]
  | duplicateId registry id => .record e.kind [("what", .text registry.text), ("id", .text id)]
  | duplicateSource varId first second => .record e.kind
      [("var_id", .text varId), ("first", .text first), ("second", .text second)]
  | unknownInput key => .record e.kind [("name", .text key)]
  | violation v => .record e.kind [("what", .text v.message)]
  | outOfBounds value bound => .record e.kind [("value", .natural value), ("bound", .natural bound)]

def DocumentError.inspection (e : DocumentError Float) : Inspection :=
  match e with
  | duplicateId id context =>
    .record e.kind [("id", .text id), ("context", .text context.text)]
  | missingReference id context =>
    .record e.kind [("id", .text id), ("context", .text context.text)]
  | unsupportedVersion version => .record e.kind [("version", .natural version)]
  | e =>
    let (field, value, reason) := e.invalidValue?.getD ("", "", "")
    .record e.kind [("field", .text field), ("value", .text value), ("reason", .text reason)]

def StorageError.inspection : StorageError → Inspection
  | io => .plain "Io"
  | text .json => .plain "Json"
  | text .yaml => .plain "Yaml"
  | validation e => .call "Validation" [e.inspection]
  | model e => .call "Model" [e.inspection]

def CommandError.inspection : CommandError → Inspection
  | storage e => .call "Project" [e.inspection]
  | model e => .call "Model" [e.inspection]
  | assignment text => .call "Assignment" [.text text]

def CommandError.report (e : CommandError) : String := "Error: " ++ e.inspection.render

end BlockDiagram
