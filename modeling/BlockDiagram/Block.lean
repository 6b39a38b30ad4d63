import BlockDiagram.Block.Kind
import BlockDiagram.Signal
/-! Blocks of a wired diagram, and the value a block takes from its inputs. -/

namespace BlockDiagram

namespace BlockKind

variable {α : Type} [Scalar α]

/-- The value of a block of this kind at the given inputs, in slot order; `current` is its present
value, which an input keeps. The input count has been checked before. -/
def evaluate (breakpoints : Array (BreakpointSet α)) (tables : Array (Table α)) (current : α) :
    BlockKind α → List α → Except (ModelError α) α
  | input, _ => .ok current
  | constant value, _ => .ok value
  | output, x :: _ => .ok x
  | limiter lower upper, x :: _ =>
    .ok (if Arithmetic.lt x lower then lower else if Arithmetic.lt upper x then upper else x)
  | unary f, x :: _ => .ok (Scalar.apply f x)
  | binary f, x :: y :: _ => .ok (Scalar.apply₂ f x y)
  | minus, [x] => .ok (-x)
  | minus, x :: y :: _ => .ok (x - y)
  | minus, [] => .error (.violation .bareMinus)
  | sum, x :: rest => .ok (rest.foldl (· + ·) x)
  | product, x :: rest => .ok (rest.foldl (· * ·) x)
  | extremum .min, x :: rest => .ok (rest.foldl (fun m y => if Arithmetic.lt y m then y else m) x)
  | extremum .max, x :: rest => .ok (rest.foldl (fun m y => if Arithmetic.lt m y then y else m) x)
  | comparison r, x :: y :: _ => .ok (Scalar.ofBool (r.holds x y))
  | connective .and, xs => .ok (Scalar.ofBool (xs.all Scalar.truthy))
  | connective .or, xs => .ok (Scalar.ofBool (xs.any Scalar.truthy))
  | not, x :: _ => .ok (Scalar.ofBool (!Scalar.truthy x))
  | switch, x :: condition :: y :: _ =>
    .ok (if Arithmetic.lt Scalar.switchThreshold (Scalar.abs condition) then x else y)
  | normalizer id, xs =>
    match breakpoints[id.index]? with
    | none => .error (.missingBreakpoints id.text)
    | some set =>
      match xs with
      | x :: _ => set.normalize x
      | [] => .error (.outOfBounds 0 0)
  | lookup id, xs =>
    match tables[id.index]? with
    | none => .error (.missingTable id.text)
    | some table => table.interpolate xs
  | _, xs => .error (.outOfBounds xs.length xs.length)

end BlockKind

/-- A block whose slots are bound to signals. -/
structure Block (α : Type) where
  name : String
  kind : BlockKind α
  /-- The bound signals, in slot order. -/
  inputs : List SignalId := []
  output : Option SignalId := none
  value : α
  /-- The epoch in which `value` was computed. -/
  computed : Option Epoch := none

namespace Block

variable {α : Type}

def isCurrent (b : Block α) (epoch : Epoch) : Bool := b.computed == some epoch

end Block

namespace BlockKind

variable {α : Type}

/-- What a block of this kind shows before its first evaluation. -/
def initialValue [Arithmetic α] : BlockKind α → α
  | constant value => value
  | _ => Arithmetic.ofNat 0

end BlockKind

end BlockDiagram
