/-! Scalars: the operations a diagram applies to the values on its signals, and the words that its indices
and sizes are kept in.
No law is assumed, so a statement over every scalar type holds of rounded arithmetic as well. -/

namespace BlockDiagram

/-- Two to the sixty-fourth: sizes and indices are kept in words of 64 bits. -/
def wordSize : Nat := 0x10000000000000000

def halfWordSize : Nat := 0x100000000

/-- What locating a value on a grid and blending table entries need. -/
class Arithmetic (α : Type) extends Add α, Sub α, Mul α, Div α where
  ofNat : Nat → α
  lt : α → α → Bool
  floor : α → α
  /-- The index a floored, positive scalar stands for; one too large for an index gives the largest.
  -/
  toIndex : α → Nat
  isFinite : α → Bool

/-- Functions of one scalar; angles are in radians. -/
inductive UnaryFn where
  | abs | floor | ceiling | exp | ln | log10 | sqrt
  | sin | cos | tan | arcsin | arccos | arctan
  deriving DecidableEq, Repr

/-- Functions of two scalars. -/
inductive BinaryFn where
  /-- The first raised to the second. -/
  | power
  /-- The angle of the point whose height comes first. -/
  | atan2
  | quotient
  deriving DecidableEq, Repr

/-- What evaluating every block needs. -/
class Scalar (α : Type) extends Arithmetic α, Neg α where
  le : α → α → Bool
  eq : α → α → Bool
  abs : α → α
  apply : UnaryFn → α → α
  apply₂ : BinaryFn → α → α → α
  /-- The limit of a signal that is unbounded below. -/
  bottom : α
  /-- The limit of a signal that is unbounded above. -/
  top : α
  /-- The text of a scalar in messages. -/
  text : α → String

namespace Scalar

variable {α : Type} [Scalar α]

def truthy (x : α) : Bool := !eq x (Arithmetic.ofNat 0)

def ofBool (b : Bool) : α := Arithmetic.ofNat b.toNat

/-- The magnitude a switch condition must exceed to count as true. -/
def switchThreshold : α := Arithmetic.ofNat 1 / Arithmetic.ofNat 10000

end Scalar

end BlockDiagram
