import BlockDiagram.Data.Fields
import BlockDiagram.Document
/-! Decoding: the document of a node. Where a formula or a table source is wanted, the forms are
tried in the order in which they are declared, and the first that fits counts. -/

namespace BlockDiagram

/-- An operator is given by its word, or by a map from it to nothing. -/
def Operator.ofNode? (n : Node) : Option Operator :=
  match n with
  | .map [(key, value)] => do
    guard (value.free? == some .null)
    Operator.ofText? (← Node.freeName? (Operator.all.map Operator.text) key)
  | n => n.freeText?.bind Operator.ofText?

namespace Formula

def ofConst? (entries : List (Node × Node)) : Option (Formula Float) := do
  let fields ← Node.freeFields? ["const"] entries
  return .const (← fields.required "const" Node.freeReal?)

def ofVar? (entries : List (Node × Node)) : Option (Formula Float) := do
  let fields ← Node.freeFields? ["var"] entries
  return .var (← fields.required "var" Node.freeText?)

def ofApply? (argument : Node → Option (Formula Float)) (entries : List (Node × Node)) :
    Option (Formula Float) := do
  let fields ← Node.freeFields? ["apply", "args"] entries
  let op ← fields.required "apply" Operator.ofNode?
  return .apply op (← fields.required "args" (Node.freeListOf? argument))

def ofLeaf? (l : Leaf) : Option (Formula Float) :=
  match l.free with
  | some (.natural n) => some (.number (Float.ofNat n))
  | some (.real x) => some (.number x)
  | some (.text s) => some (.name s)
  | _ => none

/-- The formula of a node that is at most `levels` deep. -/
def within? : (levels : Nat) → Node → Option (Formula Float)
  | _, .leaf l => ofLeaf? l
  | levels + 1, .map entries =>
    ofConst? entries <|> ofVar? entries <|> ofApply? (within? levels) entries
  | _, _ => none

/-- The formula of a node. Parts that do not count must be readable as well. -/
def ofNode? (n : Node) : Option (Formula Float) := if n.isFree then within? n.depth n else none

end Formula

/-- The table source of a node. Parts that do not count must be readable as well. -/
def TableSource.ofNode? (n : Node) : Option (TableSource Float) :=
  if !n.isFree then none
  else match n with
  | .map entries => do
    let fields ← Node.freeFields? ["axes", "values"] entries
    return .own (← fields.required "axes" (Node.freeListOf? Node.freeText?))
      (← fields.required "values" (Node.freeListOf? Node.freeReal?))
  | n => n.freeText?.map .shared

namespace Document

def variableFields : List String :=
  ["var_id", "name", "units", "initial_value", "min", "max", "input", "output", "control",
   "disturbance", "state", "state_deriv", "calculation"]

def Variable.ofNode? (positional : Bool) (n : Node) : Option (Variable Float) := do
  let fields ← n.fields? positional variableFields
  let flag := fun name => fields.defaulted name false Node.flag?
  return {
    varId := ← fields.required "var_id" Node.text?
    name := ← fields.optional "name" Node.text?
    units := ← fields.defaulted "units" "" Node.text?
    initial := ← fields.optional "initial_value" Node.real?
    min := ← fields.optional "min" Node.real?
    max := ← fields.optional "max" Node.real?
    roles := {
      input := ← flag "input"
      output := ← flag "output"
      control := ← flag "control"
      disturbance := ← flag "disturbance"
      state := ← flag "state"
      stateDeriv := ← flag "state_deriv" }
    calculation := ← fields.optional "calculation" Formula.ofNode? }

def Breakpoints.ofNode? (positional : Bool) (n : Node) : Option (Breakpoints Float) := do
  let fields ← n.fields? positional ["id", "units", "values"]
  return {
    id := ← fields.required "id" Node.text?
    units := ← fields.defaulted "units" "" Node.text?
    values := ← fields.required "values" (Node.listOf? Node.real?) }

def Grid.ofNode? (positional : Bool) (n : Node) : Option (Grid Float) := do
  let fields ← n.fields? positional ["id", "axes", "values"]
  return {
    id := ← fields.required "id" Node.text?
    axes := ← fields.required "axes" (Node.listOf? Node.text?)
    values := ← fields.required "values" (Node.listOf? Node.real?) }

def functionFields : List String := ["name", "inputs", "output", "table"]

def Function.ofNode? (positional : Bool) (n : Node) : Option (Function Float) := do
  let fields ← n.fields? positional functionFields
  return {
    name := ← fields.required "name" Node.text?
    inputs := ← fields.required "inputs" (Node.listOf? Node.text?)
    output := ← fields.required "output" Node.text?
    table := ← fields.required "table" TableSource.ofNode? }

def documentFields : List String :=
  ["version", "name", "description", "variables", "breakpoints", "tables", "functions"]

/-- A version number is a word of 32 bits. -/
def version? (n : Node) : Option Nat := n.natural?.filter (· < halfWordSize)

def ofNode? (positional : Bool) (n : Node) : Option (Document Float) := do
  let fields ← n.fields? positional documentFields
  let listOf := fun {β : Type} (name : String) (read : Bool → Node → Option β) =>
    fields.defaulted name [] (Node.listOf? (read positional))
  return {
    version := ← fields.required "version" version?
    name := ← fields.required "name" Node.text?
    description := ← fields.optional "description" Node.text?
    vars := ← listOf "variables" Variable.ofNode?
    breakpoints := ← listOf "breakpoints" Breakpoints.ofNode?
    tables := ← listOf "tables" Grid.ofNode?
    functions := ← listOf "functions" Function.ofNode? }

/-- The nodes of a record list that stand for formulas or table sources. -/
def contentsOf (positional : Bool) (fields : Fields) (list : String) (names : List String)
    (name : String) : List Node :=
  let members := ((fields.lookup list).bind Node.items?).getD []
  members.filterMap fun n => (n.fields? positional names).bind (List.lookup name)

/-- No formula or table source, each of which lies below three levels, goes deeper than `limit`. -/
def nestsWithin (positional : Bool) (limit : Nat) (n : Node) : Bool :=
  match n.fields? positional documentFields with
  | none => true
  | some fields =>
    (contentsOf positional fields "variables" variableFields "calculation"
      ++ contentsOf positional fields "functions" functionFields "table").all
      fun n => n.depth + 3 ≤ limit

end Document

end BlockDiagram
