import BlockDiagram.Data.Node
/-! Fields: reading a node as a record of named values. -/

namespace BlockDiagram

/-- The named values of a record, each name at most once. -/
abbrev Fields := List (String × Node)

namespace Fields

variable {β : Type}

def required (fields : Fields) (name : String) (read : Node → Option β) : Option β :=
  (fields.lookup name).bind read

/-- The value of a field, or a default if it is left out. -/
def defaulted (fields : Fields) (name : String) (missing : β) (read : Node → Option β) : Option β :=
  match fields.lookup name with
  | none => some missing
  | some n => read n

/-- The value of a field that may be left out or stand for a missing value. -/
def optional (fields : Fields) (name : String) (read : Node → Option β) : Option (Option β) :=
  match fields.lookup name with
  | none => some none
  | some n => do if ← n.absent? then some none else (read n).map some

/-- The entries with known names, none of which may occur twice. -/
def ofEntries? (names : List String) (entries : List (String × Node)) : Option Fields :=
  let known := entries.filter fun e => e.1 ∈ names
  if (known.map Prod.fst).Nodup then some known else none

end Fields

namespace Node

def named? (nameOf : Node → Option String) (e : Node × Node) : Option (String × Node) :=
  (nameOf e.1).map fun name => (name, e.2)

/-- The fields of a record. Where records may be `positional`, a list gives the values of the first
fields in order. Unknown fields are skipped. -/
def fields? (positional : Bool) (names : List String) (n : Node) : Option Fields :=
  match n with
  | list items =>
    if positional && items.length ≤ names.length then some (names.zip items) else none
  | n => do
    let entries ← (← n.entries?).mapM (named? text?)
    Fields.ofEntries? names entries

/-- The name of a field of a record of unknown type: a text, or the position of the field. -/
def freeName? (names : List String) (key : Node) : Option String :=
  match key.free? with
  | some (.text s) => some s
  | some (.natural i) => some (names.getD i "")
  | _ => none

/-- The fields of a map that may turn out to be a record of another type. -/
def freeFields? (names : List String) (entries : List (Node × Node)) : Option Fields := do
  Fields.ofEntries? names (← entries.mapM (named? (freeName? names)))

def freeText? (n : Node) : Option String :=
  match n.free? with
  | some (.text s) => some s
  | _ => none

def freeReal? (n : Node) : Option Float :=
  match n.free? with
  | some (.natural k) => some (Float.ofNat k)
  | some (.real x) => some x
  | _ => none

def listOf? {β : Type} (read : Node → Option β) (n : Node) : Option (List β) := do
  (← n.items?).mapM read

def freeListOf? {β : Type} (read : Node → Option β) : Node → Option (List β)
  | list items => items.mapM read
  | _ => none

end Node

end BlockDiagram
