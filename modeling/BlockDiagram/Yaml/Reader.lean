import BlockDiagram.Yaml.Lexer
import BlockDiagram.Yaml.Resolution
import BlockDiagram.Yaml.Tree
/-! Reading YAML: the node of a text that holds one document. An alias stands for the node that was
last given its name. -/

namespace BlockDiagram.Yaml

/-- The nodes that have names, in the order of the text. -/
abbrev Anchors := Array (String × Node)

namespace Anchors

def find? (anchors : Anchors) (name : String) : Option Node :=
  (anchors.toList.reverse.lookup name)

/-- Names a node that is still to be read; inside itself it cannot be read. -/
def announce (anchors : Anchors) (name : Option String) : Anchors :=
  match name with
  | none => anchors
  | some name => anchors.push (name, .leaf .unreadable)

/-- Hands the node to its name, which was the one after the first `before`. -/
def close (anchors : Anchors) (before : Nat) (name : Option String) (n : Node) : Anchors :=
  match name with
  | none => anchors
  | some name => anchors.setIfInBounds before (name, n)

end Anchors

/-- The tag that a handle and a suffix stand for. -/
def Handles.tag? (handles : Handles) (tag : Option (String × String)) : Option (Option String) :=
  match tag with
  | none => some none
  | some ("", suffix) => some (some suffix)
  | some (handle, suffix) => (handles.lookup handle).map fun uri => some (uri ++ suffix)

/-- The node of a collection: a tag of its own marks it. -/
def markedBy (tag : Option String) (n : Node) : Node :=
  if tag.any fun t => t.startsWith "!" then .marked n else n

namespace Tree

mutual

def toNode? (handles : Handles) (anchors : Anchors) : Tree → Option (Node × Anchors)
  | reference name => (anchors.find? name).map fun n => (n, anchors)
  | scalar p style text => do
    let tag ← handles.tag? p.tag
    let tag := if tag = some "!" && !(style = .plain && text = "") then none else tag
    let n := Node.leaf (leafOf tag style text)
    return (n, (anchors.announce p.anchor).close anchors.size p.anchor n)
  | list p items => do
    let tag ← handles.tag? p.tag
    let (items, inner) ← toNodes? handles (anchors.announce p.anchor) items
    let n := markedBy tag (.list items)
    return (n, inner.close anchors.size p.anchor n)
  | map p entries => do
    let tag ← handles.tag? p.tag
    let (entries, inner) ← toEntries? handles (anchors.announce p.anchor) entries
    let n := markedBy tag (.map entries)
    return (n, inner.close anchors.size p.anchor n)

def toNodes? (handles : Handles) (anchors : Anchors) : List Tree → Option (List Node × Anchors)
  | [] => some ([], anchors)
  | t :: rest => do
    let (n, anchors) ← toNode? handles anchors t
    let (ns, anchors) ← toNodes? handles anchors rest
    return (n :: ns, anchors)

def toEntries? (handles : Handles) (anchors : Anchors) :
    List (Tree × Tree) → Option (List (Node × Node) × Anchors)
  | [] => some ([], anchors)
  | (key, value) :: rest => do
    let (k, anchors) ← toNode? handles anchors key
    let (v, anchors) ← toNode? handles anchors value
    let (es, anchors) ← toEntries? handles anchors rest
    return ((k, v) :: es, anchors)

end

end Tree

def read? (text : String) : Option Node := do
  let source ← Source.ofTokens? (← tokens? text)
  let (n, _) ← source.tree.toNode? source.handles #[]
  return n

end BlockDiagram.Yaml
