import BlockDiagram.Document.Lowering
/-! The meaning of a document: the values that its formulas, functions and limits give its variables,
once the variables that nothing defines hold values of their own. -/

namespace BlockDiagram

variable {α : Type} [Scalar α]

mutual

/-- The value of a formula where the variables it names have the values `val`. -/
def Formula.value? (val : String → Option α) : Formula α → Option α
  | .number x | .const x => some x
  | .name varId | .var varId => val varId
  | .apply op args => do
    let xs ← Formula.values? val args
    (op.kind.evaluate #[] #[] (Arithmetic.ofNat 0) xs).toOption

def Formula.values? (val : String → Option α) : List (Formula α) → Option (List α)
  | [] => some []
  | f :: rest => do
    let x ← f.value? val
    return x :: (← Formula.values? val rest)

end

/-- The table over the given breakpoint sets, outermost axis first. -/
def Table.over (sets : List (BreakpointSet α)) (values : List α) : Table α :=
  { id := ""
    axes := sets.mapIdx fun i s => { set := ⟨i⟩, id := s.id, length := s.values.length }
    values := values.toArray }

namespace Document

/-- A value held between two limits; a missing limit never acts. -/
def clamp (min max : Option α) (x : α) : α :=
  match min.filter fun lo => Arithmetic.lt x lo, max.filter fun hi => Arithmetic.lt hi x with
  | some lo, _ => lo
  | none, some hi => hi
  | none, none => x

/-- The value of a variable once its limits have acted, which takes one that is finite. -/
def Variable.limit (v : Variable α) (x : α) : α :=
  if v.min.any Arithmetic.isFinite || v.max.any Arithmetic.isFinite then clamp v.min v.max x else x

variable (doc : Document α)

def breakpointSet? (id : String) : Option (BreakpointSet α) :=
  (doc.breakpoints.find? fun b => b.id == id).map fun b => { id := b.id, values := b.values }

/-- The axes and the values of a table. -/
def grid? : TableSource α → Option (List String × List α)
  | .shared id => (doc.tables.find? fun t => t.id == id).map fun t => (t.axes, t.values)
  | .own axes values => some (axes, values)

/-- The value of a function: its table at the positions of its inputs on the axes. -/
def functionValue? (val : String → Option α) (f : Function α) : Option α := do
  let (axes, values) ← doc.grid? f.table
  let sets ← axes.mapM doc.breakpointSet?
  let xs ← f.inputs.mapM val
  let coordinates ← (sets.zip xs).mapM fun p => (p.1.normalize p.2).toOption
  ((Table.over sets values).interpolate coordinates).toOption

/-- The value of a variable before its limits act: what its formula or its function gives, or its
initial value, or what it holds if it has none of these or is driven from outside. -/
def rawValue? (held val : String → Option α) (v : Variable α) : Option α :=
  match v.calculation with
  | some f => f.value? val
  | none =>
    match doc.functions.find? fun f => f.output == v.varId with
    | some f => doc.functionValue? val f
    | none =>
      match v.initial with
      | some x =>
        if v.roles.input || v.roles.control || v.roles.disturbance then held v.varId else some x
      | none => held v.varId

/-- The value of a variable whose definition unfolds in less than `depth` steps. Every reference sees
a value that its limits have acted on. -/
def valueWithin? (held : String → Option α) : Nat → String → Option α
  | 0, _ => none
  | depth + 1, varId => do
    let v ← doc.vars.find? fun v => v.varId == varId
    let x ← doc.rawValue? held (valueWithin? held depth) v
    return v.limit x

/-- The value of a variable. No chain of definitions is longer than the list of variables. -/
def value? (held : String → Option α) (varId : String) : Option α :=
  doc.valueWithin? held doc.vars.length varId

end Document

end BlockDiagram
