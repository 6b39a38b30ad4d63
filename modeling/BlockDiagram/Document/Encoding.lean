import BlockDiagram.Data.Datum
import BlockDiagram.Document
/-! Encoding: the data of a document. Optional values are left out when missing; a formula or a
table source is written without a mark of its kind. -/

namespace BlockDiagram

mutual

def Formula.datum : Formula Float → Datum
  | .number x => .real x
  | .name varId => .text varId
  | .const x => .record [("const", .real x)]
  | .var varId => .record [("var", .text varId)]
  | .apply op args => .record [("apply", .text op.text), ("args", .list (Formula.data args))]

def Formula.data : List (Formula Float) → List Datum
  | [] => []
  | f :: rest => Formula.datum f :: Formula.data rest

end

def texts (xs : List String) : Datum := .list (xs.map Datum.text)

def reals (xs : List Float) : Datum := .list (xs.map Datum.real)

def TableSource.datum : TableSource Float → Datum
  | shared id => .text id
  | own axes values => .record [("axes", texts axes), ("values", reals values)]

namespace Document

def Variable.datum (v : Variable Float) : Datum := .record (
  [("var_id", .text v.varId)] ++ Datum.optional "name" .text v.name
  ++ [("units", .text v.units)] ++ Datum.optional "initial_value" .real v.initial
  ++ Datum.optional "min" .real v.min ++ Datum.optional "max" .real v.max
  ++ [("input", .flag v.roles.input), ("output", .flag v.roles.output),
      ("control", .flag v.roles.control), ("disturbance", .flag v.roles.disturbance),
      ("state", .flag v.roles.state), ("state_deriv", .flag v.roles.stateDeriv)]
  ++ Datum.optional "calculation" Formula.datum v.calculation)

def Breakpoints.datum (b : Breakpoints Float) : Datum :=
  .record [("id", .text b.id), ("units", .text b.units), ("values", reals b.values)]

def Grid.datum (t : Grid Float) : Datum :=
  .record [("id", .text t.id), ("axes", texts t.axes), ("values", reals t.values)]

def Function.datum (f : Function Float) : Datum :=
  .record [("name", .text f.name), ("inputs", texts f.inputs), ("output", .text f.output),
    ("table", f.table.datum)]

def datum (doc : Document Float) : Datum := .record (
  [("version", .natural doc.version), ("name", .text doc.name)]
  ++ Datum.optional "description" .text doc.description
  ++ [("variables", .list (doc.vars.map Variable.datum)),
      ("breakpoints", .list (doc.breakpoints.map Breakpoints.datum)),
      ("tables", .list (doc.tables.map Grid.datum)),
      ("functions", .list (doc.functions.map Function.datum))])

def same (a b : Document Float) : Bool := a.datum.same b.datum

end Document

end BlockDiagram
