import BlockDiagram.Block
/-! Documents: models as they are written down, with variables defined by formulas and tables. -/

namespace BlockDiagram

/-- Operators of formulas. -/
inductive Operator where
  | plus | minus | times
  /-- Two spellings of one operation. -/
  | divide | quotient
  | power | abs | floor | ceiling | exp | ln | log10 | sqrt
  | sin | cos | tan | arcsin | arccos | arctan | atan2
  | min | max | lt | leq | eq | geq | gt | neq | and | or | not
  /-- Value if true, condition, value otherwise. -/
  | piecewise
  deriving DecidableEq, Repr

namespace Operator

def all : List Operator :=
  [plus, minus, times, divide, quotient, power, abs, floor, ceiling, exp, ln, log10, sqrt, sin, cos,
   tan, arcsin, arccos, arctan, atan2, min, max, lt, leq, eq, geq, gt, neq, and, or, not, piecewise]

def text : Operator → String
  | plus => "plus"
  | minus => "minus"
  | times => "times"
  | divide => "divide"
  | quotient => "quotient"
  | power => "power"
  | abs => "abs"
  | floor => "floor"
  | ceiling => "ceiling"
  | exp => "exp"
  | ln => "ln"
  | log10 => "log10"
  | sqrt => "sqrt"
  | sin => "sin"
  | cos => "cos"
  | tan => "tan"
  | arcsin => "arcsin"
  | arccos => "arccos"
  | arctan => "arctan"
  | atan2 => "atan2"
  | min => "min"
  | max => "max"
  | lt => "lt"
  | leq => "leq"
  | eq => "eq"
  | geq => "geq"
  | gt => "gt"
  | neq => "neq"
  | and => "and"
  | or => "or"
  | not => "not"
  | piecewise => "piecewise"

def ofText? (s : String) : Option Operator := all.find? fun op => op.text == s

def kind {α : Type} : Operator → BlockKind α
  | plus => .sum
  | minus => .minus
  | times => .product
  | divide | quotient => .binary .quotient
  | power => .binary .power
  | atan2 => .binary .atan2
  | abs => .unary .abs
  | floor => .unary .floor
  | ceiling => .unary .ceiling
  | exp => .unary .exp
  | ln => .unary .ln
  | log10 => .unary .log10
  | sqrt => .unary .sqrt
  | sin => .unary .sin
  | cos => .unary .cos
  | tan => .unary .tan
  | arcsin => .unary .arcsin
  | arccos => .unary .arccos
  | arctan => .unary .arctan
  | min => .extremum .min
  | max => .extremum .max
  | lt => .comparison .lt
  | leq => .comparison .leq
  | eq => .comparison .eq
  | geq => .comparison .geq
  | gt => .comparison .gt
  | neq => .comparison .neq
  | and => .connective .and
  | or => .connective .or
  | not => .not
  | piecewise => .switch

end Operator

/-- Formulas. Literals and references have a short and a long spelling, which saving keeps apart. -/
inductive Formula (α : Type) where
  | number (x : α)
  | name (varId : String)
  | const (x : α)
  | var (varId : String)
  | apply (op : Operator) (args : List (Formula α))

/-- The table of a function: one shared by ID, or one of its own. -/
inductive TableSource (α : Type) where
  | shared (id : String)
  | own (axes : List String) (values : List α)

namespace Document

structure Variable (α : Type) where
  varId : String
  name : Option String := none
  units : String := ""
  initial : Option α := none
  min : Option α := none
  max : Option α := none
  roles : DeclaredRoles := {}
  calculation : Option (Formula α) := none

structure Breakpoints (α : Type) where
  id : String
  units : String := ""
  values : List α

/-- A shared table: breakpoint sets, outermost axis first, and values in row-major order. -/
structure Grid (α : Type) where
  id : String
  axes : List String
  values : List α

/-- A variable given by a table at one input per axis. -/
structure Function (α : Type) where
  name : String
  inputs : List String
  output : String
  table : TableSource α

end Document

structure Document (α : Type) where
  version : Nat
  name : String
  description : Option String := none
  vars : List (Document.Variable α) := []
  breakpoints : List (Document.Breakpoints α) := []
  tables : List (Document.Grid α) := []
  functions : List (Document.Function α) := []

namespace Document.Variable

variable {α : Type}

/-- The display name, which defaults to the variable ID. -/
def displayName (v : Variable α) : String := v.name.getD v.varId

end Document.Variable

end BlockDiagram
