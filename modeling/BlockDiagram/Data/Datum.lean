import BlockDiagram.Data.Node
/-! Data: trees of typed values, as they are written to a text. -/

namespace BlockDiagram

inductive Datum where
  | flag (b : Bool)
  | natural (n : Nat)
  | real (x : Float)
  | text (s : String)
  | list (items : List Datum)
  /-- Fields in the order in which they are written. -/
  | record (fields : List (String × Datum))

namespace Datum

mutual

/-- The node a text that keeps every value gives back. -/
def node : Datum → Node
  | flag b => .leaf (.ofFlag b)
  | natural n => .leaf (.ofNatural n)
  | real x => .leaf (.ofReal x)
  | text s => .leaf (.ofText s)
  | list items => .list (nodes items)
  | record fields => .map (nodesOfFields fields)

def nodes : List Datum → List Node
  | [] => []
  | d :: rest => node d :: nodes rest

def nodesOfFields : List (String × Datum) → List (Node × Node)
  | [] => []
  | (name, d) :: rest => (.leaf (.ofText name), node d) :: nodesOfFields rest

end

/-- Two reals that no reader can tell apart. -/
def sameReal (x y : Float) : Bool := x.toBits == y.toBits || x.isNaN && y.isNaN

mutual

def same : Datum → Datum → Bool
  | flag a, flag b => a == b
  | natural a, natural b => a == b
  | real x, real y => sameReal x y
  | text s, text t => s == t
  | list xs, list ys => sameItems xs ys
  | record xs, record ys => sameFields xs ys
  | _, _ => false

def sameItems : List Datum → List Datum → Bool
  | [], [] => true
  | x :: xs, y :: ys => same x y && sameItems xs ys
  | _, _ => false

def sameFields : List (String × Datum) → List (String × Datum) → Bool
  | [], [] => true
  | (name, x) :: xs, (name', y) :: ys => name == name' && same x y && sameFields xs ys
  | _, _ => false

end

/-- A field that is written only if there is a value. -/
def optional {β : Type} (name : String) (write : β → Datum) (value : Option β) :
    List (String × Datum) :=
  (value.map fun x => (name, write x)).toList

end Datum

end BlockDiagram
