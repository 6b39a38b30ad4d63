/-! Nodes: trees of data as a text gives them, before it is known which types are wanted. -/

namespace BlockDiagram

/-- What a leaf is where a value of any type is allowed. -/
inductive Free where
  | null
  | flag (b : Bool)
  | natural (n : Nat)
  | real (x : Float)
  | text (s : String)
  deriving DecidableEq, Repr

/-- A leaf: what it reads as for each type that may be wanted of it. A leaf that reads as nothing
can only be skipped. -/
structure Leaf where
  text : Option String := none
  real : Option Float := none
  natural : Option Nat := none
  flag : Option Bool := none
  free : Option Free := none
  /-- Whether it stands for a missing value where one may be missing, if this can be told. -/
  absent : Option Bool := some false
  /-- It stands for the empty list. -/
  empty : Bool := false
  deriving DecidableEq, Repr

namespace Leaf

def unreadable : Leaf := { absent := none }

def null : Leaf := { free := some .null, absent := some true }

def ofFlag (b : Bool) : Leaf := { flag := some b, free := some (.flag b) }

def ofReal (x : Float) : Leaf := { real := some x, free := some (.real x) }

/-- A whole number reads as a real as well. -/
def ofNatural (n : Nat) : Leaf :=
  { natural := some n, real := some (Float.ofNat n), free := some (.natural n) }

def ofText (s : String) : Leaf := { text := some s, free := some (.text s) }

end Leaf

inductive Node where
  | leaf (l : Leaf)
  | list (items : List Node)
  /-- Entries in the order of the text; a key may occur more than once. -/
  | map (entries : List (Node × Node))
  /-- A list or map with a type mark of its own: readable only where its type is known. -/
  | marked (n : Node)

namespace Node

mutual

/-- The number of lists and maps around the deepest leaf, itself included if it is one. -/
def depth : Node → Nat
  | leaf _ => 0
  | list items => depthOfItems items + 1
  | map entries => depthOfEntries entries + 1
  | marked n => depth n

def depthOfItems : List Node → Nat
  | [] => 0
  | n :: rest => max (depth n) (depthOfItems rest)

def depthOfEntries : List (Node × Node) → Nat
  | [] => 0
  | (key, value) :: rest => max (max (depth key) (depth value)) (depthOfEntries rest)

end

def text? : Node → Option String
  | leaf l => l.text
  | _ => none

def real? : Node → Option Float
  | leaf l => l.real
  | _ => none

def natural? : Node → Option Nat
  | leaf l => l.natural
  | _ => none

def flag? : Node → Option Bool
  | leaf l => l.flag
  | _ => none

def free? : Node → Option Free
  | leaf l => l.free
  | _ => none

def absent? : Node → Option Bool
  | leaf l => l.absent
  | _ => some false

mutual

/-- Every part of it can be read where any type is allowed. -/
def isFree : Node → Bool
  | leaf l => l.free.isSome
  | list items => areFree items
  | map entries => entriesAreFree entries
  | marked _ => false

def areFree : List Node → Bool
  | [] => true
  | n :: rest => isFree n && areFree rest

def entriesAreFree : List (Node × Node) → Bool
  | [] => true
  | (key, value) :: rest => isFree key && isFree value && entriesAreFree rest

end

def items? : Node → Option (List Node)
  | leaf l => if l.empty then some [] else none
  | list items => some items
  | map _ => none
  | marked n => items? n

def entries? : Node → Option (List (Node × Node))
  | leaf l => if l.empty then some [] else none
  | list _ => none
  | map entries => some entries
  | marked n => entries? n

end Node

end BlockDiagram
