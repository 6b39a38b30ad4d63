import BlockDiagram.Grid.Breakpoints
/-! Tables: function values on the nodes of a grid, and multilinear interpolation between them. -/

namespace BlockDiagram

/-- The number of nodes of a grid with the given axis lengths, however large. -/
def gridSize (dims : List Nat) : Nat := dims.foldr (· * ·) 1

/-- The number of nodes as it is counted, axis by axis from the first, with every product in a word. -/
def nodeCount {α : Type} (dims : List Nat) : Except (ModelError α) Nat :=
  dims.foldlM (fun count length => inWord (count * length)) 1

/-- The step in the flat order for each axis: the nodes of the axes after it. Of a grid whose nodes have
been counted, these can be counted as well. -/
def strides : List Nat → List Nat
  | [] => []
  | _ :: dims => gridSize dims :: strides dims

/-- One axis of a table: a breakpoint set with its length. -/
structure Axis where
  set : BreakpointId
  id : String
  length : Nat
  deriving DecidableEq, Repr

/-- Function values in row-major order, the last axis varying fastest, and the lookup blocks that
read them. -/
structure Table (α : Type) where
  id : String
  axes : List Axis
  values : Array α
  users : List BlockId := []

namespace Table

variable {α : Type}

def dims (t : Table α) : List Nat := t.axes.map Axis.length

def rank (t : Table α) : Nat := t.axes.length

/-- The table over the given axes, of which there is at least one, with one value a node. -/
def ofValues (id : String) (axes : List Axis) (values : Array α) :
    Except (ModelError α) (Table α) :=
  if axes.isEmpty then .error (.tableShape id 1 0)
  else do
    let expected ← nodeCount (axes.map Axis.length)
    if values.size = expected then .ok { id, axes, values }
    else .error (.tableShape id expected values.size)

/-- The flat position of a node. One that no word holds is past the end of the values, as is any other from
their number on. -/
def offset (t : Table α) (indices : List Nat) : Nat :=
  (List.zipWith (· * ·) indices (strides t.dims)).foldr (· + ·) 0

variable [Arithmetic α]

/-- The cell of a coordinate on an axis with `length` points; the top edge is the last point. -/
def cell (coordinate : α) (length : Nat) : Nat :=
  let whole :=
    if Arithmetic.lt (Arithmetic.ofNat 0) coordinate then
      Arithmetic.toIndex (Arithmetic.floor coordinate)
    else 0
  min whole (length - 1)

/-- What a positive coordinate has beyond its floor; zero for any other. -/
def fraction (coordinate : α) : α :=
  if Arithmetic.lt (Arithmetic.ofNat 0) coordinate then coordinate - Arithmetic.floor coordinate
  else Arithmetic.ofNat 0

def lerp (a b w : α) : α := a + (b - a) * w

def along {β : Type} (xs : List β) (axis : Nat) : Except (ModelError α) β :=
  match xs[axis]? with
  | some x => .ok x
  | none => .error (.outOfBounds axis xs.length)

/-- Blends along the last `depth` axes from the corner in `corner`, which holds one index an axis,
and hands the corner back as it was. At the top edge the blend takes the last interval at full
weight; an axis with a single point has nothing to blend. -/
def blend (t : Table α) (coordinates : List α) :
    (depth : Nat) → (corner : List Nat) → Except (ModelError α) (α × List Nat)
  | 0, corner => do
    let value ← entry t.values (t.offset corner)
    return (value, corner)
  | depth + 1, corner => do
    let axis := t.rank - (depth + 1)
    let length ← along t.dims axis
    if length < 2 then
      t.blend coordinates depth corner
    else
      let index ← along corner axis
      let atTop := length - 1 ≤ index
      let low := if atTop then length - 2 else index
      let weight ← if atTop then pure (Arithmetic.ofNat 1) else fraction <$> along coordinates axis
      let (a, corner) ← t.blend coordinates depth (corner.set axis low)
      let next ← along corner axis
      let (b, corner) ← t.blend coordinates depth (corner.set axis (next + 1))
      return (lerp a b weight, corner.set axis index)

/-- The value at one index-and-fraction coordinate per axis, held at the edges. -/
def interpolate (t : Table α) (coordinates : List α) : Except (ModelError α) α :=
  if coordinates.length = t.rank then do
    let (value, _) ← t.blend coordinates t.rank (List.zipWith cell coordinates t.dims)
    return value
  else .error (.violation (.coordinates t.id t.rank coordinates.length))

end Table

end BlockDiagram
