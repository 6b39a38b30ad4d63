import BlockDiagram.Failure
/-! Breakpoint sets: the coordinates along one axis of a grid, and locating a scalar among them. -/

namespace BlockDiagram

/-- Coordinates in nondecreasing order, and the normalizer blocks that read them. -/
structure BreakpointSet (α : Type) where
  id : String
  values : List α
  users : List BlockId := []

def firstDescent {α : Type} [Arithmetic α] : List α → Option Nat
  | a :: b :: rest =>
    if Arithmetic.lt b a then some 1 else (firstDescent (b :: rest)).map (· + 1)
  | _ => none

namespace BreakpointSet

variable {α : Type} [Arithmetic α]

/-- The set of the given coordinates, which must be present, finite and nondecreasing. Equal
neighbours are allowed. -/
def ofValues (id : String) (values : List α) : Except (ModelError α) (BreakpointSet α) :=
  if values.isEmpty then .error (.emptyBreakpoints id)
  else
    match values.find? fun v => !Arithmetic.isFinite v with
    | some v => .error (.nonFinite ⟨"breakpoint", v⟩)
    | none =>
      match firstDescent values with
      | some index => .error (.decreasing id index)
      | none => .ok { id, values }

/-- The position of `x` among `low :: rest`, where `low` has index `i` and is not above `x`: index
plus fraction below the first coordinate that exceeds `x`, the last index if there is none. -/
def position (x : α) (i : Nat) (low : α) : List α → α
  | [] => Arithmetic.ofNat i
  | high :: rest =>
    if Arithmetic.lt x high then Arithmetic.ofNat i + (x - low) / (high - low)
    else position x (i + 1) high rest

/-- Index plus fraction of a scalar on the axis, held at both ends. -/
def normalize (s : BreakpointSet α) (x : α) : Except (ModelError α) α :=
  match s.values with
  | [] => .error (.emptyBreakpoints s.id)
  | first :: rest =>
    .ok (if Arithmetic.lt x first then Arithmetic.ofNat 0 else position x 0 first rest)

end BreakpointSet

end BlockDiagram
