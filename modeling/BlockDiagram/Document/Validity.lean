import BlockDiagram.Document
/-! Validity: what a document must satisfy before it is lowered or saved. -/

namespace BlockDiagram

/-- The lists of a document whose members have IDs. -/
inductive Section where
  | vars | breakpoints | tables | functions
  deriving DecidableEq, Repr

/-- Places in a document that refer to something by ID. -/
inductive Place where
  | function (name : String)
  | functionTable (name : String)
  | axes (owner : String)
  | calculation (varId : String)
  deriving DecidableEq, Repr

inductive DocumentError (α : Type) where
  | duplicateId (id : String) (context : Section)
  | missingReference (id : String) (context : Place)
  | limitsReversed (varId : String) (min max : α)
  | noBreakpoints (id : String)
  | breakpointNotFinite (id : String) (value : α)
  | noAxes (owner : String)
  | noArguments (varId : String) (op : Operator)
  | unsupportedVersion (version : Nat)

namespace Section

def text : Section → String
  | vars => "variables"
  | breakpoints => "breakpoints"
  | tables => "tables"
  | functions => "functions"

end Section

namespace Place

def text : Place → String
  | function name => s!"function {name}"
  | functionTable name => s!"function {name} table"
  | axes owner => s!"{owner} axes"
  | calculation varId => s!"calculation of {varId}"

end Place

namespace Operator

def title (op : Operator) : String := op.text.capitalize

end Operator

namespace DocumentError

variable {α : Type}

def kind : DocumentError α → String
  | duplicateId _ _ => "DuplicateId"
  | missingReference _ _ => "MissingReference"
  | unsupportedVersion _ => "UnsupportedVersion"
  | limitsReversed _ _ _ | noBreakpoints _ | breakpointNotFinite _ _ | noAxes _ | noArguments _ _ =>
    "InvalidValue"

variable [Scalar α]

/-- The field, the value and the reason of a value that is not valid. -/
def invalidValue? : DocumentError α → Option (String × String × String)
  | limitsReversed varId min max =>
    some (s!"{varId}.min", Scalar.text min, s!"greater than max {Scalar.text max}")
  | noBreakpoints id => some (s!"{id}.values", "[]", "breakpoint set must not be empty")
  | breakpointNotFinite id value =>
    some (s!"{id}.values", Scalar.text value, "breakpoints must be finite")
  | noAxes owner => some (s!"{owner}.axes", "[]", "a table needs at least one axis")
  | noArguments varId op =>
    some (s!"{varId}.calculation", op.title, "operator applied to no arguments")
  | _ => none

def message (e : DocumentError α) : String :=
  match e with
  | duplicateId id context => s!"Duplicate ID: {id} in {context.text}"
  | missingReference id context => s!"Missing reference: {id} in {context.text}"
  | unsupportedVersion version => s!"Unsupported version: {version}"
  | e =>
    let (field, value, reason) := e.invalidValue?.getD ("", "", "")
    s!"Invalid value: {field} = {value} ({reason})"

end DocumentError

namespace Document

variable {α : Type}

/-- The newest version of the document format. -/
def latestVersion : Nat := 1

def checkKnown (known : List String) (place : Place) : List String → Except (DocumentError α) Unit
  | [] => .ok ()
  | id :: rest =>
    if id ∈ known then checkKnown known place rest else .error (.missingReference id place)

/-- A table has an axis, and every axis is a known breakpoint set. -/
def checkAxes (sets : List String) (owner : String) (axes : List String) :
    Except (DocumentError α) Unit :=
  if axes.isEmpty then .error (.noAxes owner) else checkKnown sets (.axes owner) axes

mutual

/-- A formula refers to known variables only, and no operator in it lacks arguments. -/
def checkFormula (varIds : List String) (owner : String) :
    Formula α → Except (DocumentError α) Unit
  | .number _ | .const _ => .ok ()
  | .name id | .var id => checkKnown varIds (.calculation owner) [id]
  | .apply op args =>
    if args.isEmpty then .error (.noArguments owner op) else checkFormulas varIds owner args

def checkFormulas (varIds : List String) (owner : String) :
    List (Formula α) → Except (DocumentError α) Unit
  | [] => .ok ()
  | f :: rest => do
    checkFormula varIds owner f
    checkFormulas varIds owner rest

end

/-- The IDs of a section are distinct, and each of its members passes a check of its own. -/
def checkSection {β : Type} (context : Section) (id : β → String)
    (check : β → Except (DocumentError α) Unit) :
    (seen : List String) → List β → Except (DocumentError α) Unit
  | _, [] => .ok ()
  | seen, b :: rest => do
    if id b ∈ seen then
      throw (.duplicateId (id b) context)
    check b
    checkSection context id check (id b :: seen) rest

def checkFunction (varIds sets tables : List String) (f : Function α) :
    Except (DocumentError α) Unit := do
  checkKnown varIds (.function f.name) (f.inputs ++ [f.output])
  match f.table with
  | .shared id => checkKnown tables (.functionTable f.name) [id]
  | .own axes _ => checkAxes sets f.name axes

def checkCalculations (varIds : List String) : List (Variable α) → Except (DocumentError α) Unit
  | [] => .ok ()
  | v :: rest => do
    match v.calculation with
    | some f => checkFormula varIds v.varId f
    | none => pure ()
    checkCalculations varIds rest

variable [Arithmetic α]

def checkLimits (v : Variable α) : Except (DocumentError α) Unit :=
  match v.min, v.max with
  | some lo, some hi =>
    if Arithmetic.lt hi lo then .error (.limitsReversed v.varId lo hi) else .ok ()
  | _, _ => .ok ()

def checkBreakpoints (b : Breakpoints α) : Except (DocumentError α) Unit :=
  if b.values.isEmpty then .error (.noBreakpoints b.id)
  else
    match b.values.find? fun v => !Arithmetic.isFinite v with
    | some v => .error (.breakpointNotFinite b.id v)
    | none => .ok ()

def check (doc : Document α) : Except (DocumentError α) Unit := do
  if doc.version = 0 || latestVersion < doc.version then
    throw (.unsupportedVersion doc.version)
  let varIds := doc.vars.map Variable.varId
  let sets := doc.breakpoints.map Breakpoints.id
  let tables := doc.tables.map Grid.id
  checkSection .vars Variable.varId checkLimits [] doc.vars
  checkSection .breakpoints Breakpoints.id checkBreakpoints [] doc.breakpoints
  checkSection .tables Grid.id (fun t => checkAxes sets t.id t.axes) [] doc.tables
  checkSection .functions Function.name (checkFunction varIds sets tables) [] doc.functions
  checkCalculations varIds doc.vars

end Document

end BlockDiagram
