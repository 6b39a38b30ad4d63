import BlockDiagram.Command
import BlockDiagram.Defect
/-! Reports: what a command prints on the text of its file. What was printed before a failure stays.
-/

namespace BlockDiagram

namespace Text

def isWhite (c : Char) : Bool :=
  let n := c.toNat
  (0x09 ≤ n && n ≤ 0x0d) || (0x2000 ≤ n && n ≤ 0x200a)
    || n ∈ [0x20, 0x85, 0xa0, 0x1680, 0x2028, 0x2029, 0x202f, 0x205f, 0x3000]

def trim (cs : List Char) : List Char :=
  ((cs.dropWhile isWhite).reverse.dropWhile isWhite).reverse

end Text

namespace Command

/-- A run of a command, whose state is the text printed so far. -/
abbrev Printing := EStateM CommandError String

def print (line : String) : Printing Unit := modify fun printed => printed ++ line ++ "\n"

def printAll : List String → Printing Unit
  | [] => pure ()
  | line :: rest => do
    print line
    printAll rest

def padEnd (width : Nat) (s : String) : String :=
  s ++ String.ofList (List.replicate (width - s.length) ' ')

def padStart (width : Nat) (s : String) : String :=
  String.ofList (List.replicate (width - s.length) ' ') ++ s

def loadModel (path : String) (text : Option String) : Except CommandError (Model Float) := do
  let text ← match text with
    | some text => pure text
    | none => throw (.storage .io)
  let doc ← ((Format.ofFileName path).load text).mapError CommandError.storage
  doc.loadedModel.mapError .storage

/-- The model a call leaves, if it succeeds. -/
def after (m : Model Float) (call : Running Float Unit) : Except CommandError (Model Float) :=
  match call.run m with
  | .ok _ m => .ok m
  | .error e _ => .error (.model e)

def assignment? (text : String) : Option (String × Float) := do
  let (name, value) ← match text.toList.dropWhile (· ≠ '=') with
    | [] => none
    | _ :: value => some (text.toList.takeWhile (· ≠ '='), value)
  let x ← floatOfText? (String.ofList (Text.trim value))
  return (String.ofList (Text.trim name), x)

/-- Reads and makes the assignments one after the other. -/
def assignAll (m : Model Float) : List String → Except CommandError (Model Float)
  | [] => .ok m
  | text :: rest =>
    match assignment? text with
    | none => .error (.assignment text)
    | some (name, value) => do assignAll (← after m (Model.setInput name value)) rest

def validityLines (m : Model Float) : List String :=
  if m.defects.isEmpty then ["✓ Model is valid"]
  else "✗ Model has wiring issues:" :: m.defects.map fun d => "  " ++ d.message

def orderLines (m : Model Float) : List String :=
  let order := m.order.getD []
  let line := fun (id, position) => (m.block? id).map fun b : Block Float =>
    "  " ++ padStart 4 (toString position) ++ "  " ++ padEnd 32 b.name ++ " " ++ b.kind.tag
  s!"Execution order ({order.length} blocks):" :: order.zipIdx.filterMap line

def recordDatum (r : Record Float) : Datum := .record
  [("name", .text r.name), ("var_id", .text r.varId), ("units", .text r.units),
   ("value", .real r.value), ("lower", .real r.lower), ("upper", .real r.upper)]

def outputLines (m : Model Float) : List String :=
  let line := fun r : Record Float =>
    "  " ++ padEnd 24 r.varId ++ " " ++ padStart 16 (fixedText 6 r.value) ++ " " ++ r.units
  s!"Outputs after cycle {m.epoch.text}:" :: m.results.map line

def descriptionLines (m : Model Float) : List String :=
  let signal := fun s : Signal Float =>
    let roles := [Role.input, .output, .derived].filter s.roles.toList.contains
    "  " ++ padEnd 24 s.varId ++ " " ++ padEnd 12 s.units
      ++ " [" ++ ", ".intercalate (roles.map Role.text) ++ "]"
  let table := fun t : Table Float =>
    "  " ++ padEnd 24 t.id ++ " axes: " ++ " x ".intercalate (t.axes.map fun a => a.id)
  [s!"Model: {m.name}", s!"Signals ({m.signals.size}):"] ++ m.signals.toList.map signal
    ++ [s!"Blocks ({m.blocks.size}):"]
    ++ (m.census.map fun (tag, count) => "  " ++ padEnd 12 tag ++ " " ++ toString count)
    ++ [s!"Tables ({m.tables.size}):"] ++ m.tables.toList.map table

/-- Runs a command on the text of its file, which may be missing. -/
def run (text : Option String) : Command → Printing Unit
  | validate path => do
    print s!"Validating model: {path}"
    let m ← loadModel path text
    printAll (validityLines (← after m Model.prepare))
  | order path => do
    let m ← loadModel path text
    printAll (orderLines (← after m Model.prepare))
  | evaluate path assignments json => do
    let m ← assignAll (← loadModel path text) assignments
    let m ← after m Model.cycle
    if json then print (Json.write (.list (m.results.map recordDatum)))
    else printAll (outputLines m)
  | describe path => do
    printAll (descriptionLines (← loadModel path text))

end Command

end BlockDiagram
