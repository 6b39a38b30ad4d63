import BlockDiagram.Grid.Table
/-! Kinds of block: what a block computes, and how many inputs that takes. -/

namespace BlockDiagram

inductive Extremum where
  | min | max
  deriving DecidableEq, Repr

/-- Comparisons of two scalars; the result is one or zero. -/
inductive Comparison where
  | lt | leq | eq | geq | gt | neq
  deriving DecidableEq, Repr

/-- Connectives of truth values. -/
inductive Connective where
  | and | or
  deriving DecidableEq, Repr

inductive BlockKind (α : Type) where
  /-- A value the caller sets. -/
  | input
  /-- A tap that makes its single input a model output; it produces no signal. -/
  | output
  | constant (value : α)
  /-- Holds its input between two limits; an infinite one never acts. -/
  | limiter (lower upper : α)
  | unary (f : UnaryFn)
  | binary (f : BinaryFn)
  /-- The negative of one input, the difference of two. -/
  | minus
  | sum
  | product
  | extremum (e : Extremum)
  | comparison (r : Comparison)
  | connective (c : Connective)
  | not
  /-- The first input if the magnitude of the second exceeds a threshold, else the third. -/
  | switch
  /-- Index plus fraction of its input on a breakpoint set. -/
  | normalizer (breakpoints : BreakpointId)
  /-- The value of a table at one index-and-fraction input per axis. -/
  | lookup (table : TableId)
  deriving DecidableEq, Repr

namespace UnaryFn

def tag : UnaryFn → String
  | abs => "abs"
  | floor => "floor"
  | ceiling => "ceiling"
  | exp => "exp"
  | ln => "ln"
  | log10 => "log10"
  | sqrt => "sqrt"
  | sin => "sin"
  | cos => "cos"
  | tan => "tan"
  | arcsin => "arcsin"
  | arccos => "arccos"
  | arctan => "arctan"

end UnaryFn

namespace BinaryFn

def tag : BinaryFn → String
  | power => "power"
  | atan2 => "atan2"
  | quotient => "quotient"

end BinaryFn

namespace Comparison

def tag : Comparison → String
  | lt => "lt"
  | leq => "leq"
  | eq => "eq"
  | geq => "geq"
  | gt => "gt"
  | neq => "neq"

variable {α : Type} [Scalar α]

def holds (r : Comparison) (a b : α) : Bool :=
  match r with
  | lt => Arithmetic.lt a b
  | leq => Scalar.le a b
  | eq => Scalar.eq a b
  | geq => Scalar.le b a
  | gt => Arithmetic.lt b a
  | neq => !Scalar.eq a b

end Comparison

namespace BlockKind

variable {α : Type}

/-- The limiter between two limits given in either order. -/
def limiterBetween [Arithmetic α] (a b : α) : BlockKind α :=
  if Arithmetic.lt b a then limiter b a else limiter a b

/-- The short name used in block names and reports. -/
def tag : BlockKind α → String
  | input => "input"
  | output => "output"
  | constant _ => "constant"
  | limiter _ _ => "limiter"
  | unary f => f.tag
  | binary f => f.tag
  | minus => "minus"
  | sum => "sum"
  | product => "product"
  | extremum .min => "min"
  | extremum .max => "max"
  | comparison r => r.tag
  | connective .and => "and"
  | connective .or => "or"
  | not => "not"
  | switch => "switch"
  | normalizer _ => "breakpoints"
  | lookup _ => "table"

/-- The input counts a kind accepts; a lookup takes one input per axis of its table. -/
def arity (tables : Array (Table α)) : BlockKind α → Arity
  | input | constant _ => .exactly 0
  | output | limiter _ _ | unary _ | not | normalizer _ => .exactly 1
  | binary _ | comparison _ => .exactly 2
  | switch => .exactly 3
  | minus => .between 1 2
  | sum | product | extremum _ | connective _ => .atLeast 1
  | lookup table => .exactly ((tables[table.index]?).elim 0 Table.rank)

/-- Kinds without inputs, ready as soon as a cycle starts. -/
def isSource : BlockKind α → Bool
  | input | constant _ => true
  | _ => false

def isInput : BlockKind α → Bool
  | input => true
  | _ => false

def isOutput : BlockKind α → Bool
  | output => true
  | _ => false

def isLimiter : BlockKind α → Bool
  | limiter _ _ => true
  | _ => false

def isLookup : BlockKind α → Bool
  | lookup _ => true
  | _ => false

def hasOutput (k : BlockKind α) : Bool := !k.isOutput

end BlockKind

end BlockDiagram
