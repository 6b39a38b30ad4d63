import BlockDiagram.Yaml.Token
/-! Trees: the collections and scalars of a document as its tokens nest them. -/

namespace BlockDiagram.Yaml

/-- What may stand before a node: a name for it, and a tag as handle and suffix. -/
structure Properties where
  anchor : Option String := none
  tag : Option (String × String) := none
  deriving DecidableEq, Repr

inductive Tree where
  | reference (name : String)
  | scalar (properties : Properties) (style : Style) (text : String)
  | list (properties : Properties) (items : List Tree)
  | map (properties : Properties) (entries : List (Tree × Tree))

namespace Tree

def absent : Tree := scalar {} .plain ""

/-- An anchor and a tag in any order, and the tokens behind them. -/
def properties : List Token → Properties × List Token
  | .anchor name :: .tag handle suffix :: rest => (⟨some name, some (handle, suffix)⟩, rest)
  | .tag handle suffix :: .anchor name :: rest => (⟨some name, some (handle, suffix)⟩, rest)
  | .anchor name :: rest => (⟨some name, none⟩, rest)
  | .tag handle suffix :: rest => (⟨none, some (handle, suffix)⟩, rest)
  | rest => ({}, rest)

/-- A node is left out before these tokens. -/
def endsBlockEntry (ts : List Token) : Bool :=
  ts.head?.any fun t => t = .key || t = .value || t = .closeBlock

def endsItem (ts : List Token) : Bool :=
  ts.head?.any fun t => t = .item || t = .closeBlock

def endsInFlow (closing : Token) (ts : List Token) : Bool :=
  ts.head?.any fun t => t = .comma || t = closing

/-- The tokens of the next member of a bracket; all but the first are behind a comma. -/
def member? (first : Bool) (ts : List Token) : Option (List Token) :=
  match first, ts with
  | true, ts => some ts
  | false, .comma :: rest => some rest
  | false, _ => none

mutual

/-- Reads a node. Only in a `block` may it be opened by indentation, and only for an entry may the
items of a list stand at the column of their key. -/
def node? (block entry : Bool) : (fuel : Nat) → List Token → Option (Tree × List Token)
  | 0, _ => none
  | _, .reference name :: rest => some (.reference name, rest)
  | fuel + 1, ts =>
    let (p, rest) := properties ts
    match rest with
    | .scalar style text :: rest => some (.scalar p style text, rest)
    | .openList :: rest => (flowItems? fuel true rest).map fun (xs, rest) => (.list p xs, rest)
    | .openMap :: rest => (flowEntries? fuel true rest).map fun (xs, rest) => (.map p xs, rest)
    | rest =>
      match block, entry, rest with
      | true, _, .openBlockList :: rest =>
        (items? fuel rest).map fun (xs, rest) => (.list p xs, rest)
      | true, _, .openBlockMap :: rest =>
        (entries? fuel rest).map fun (xs, rest) => (.map p xs, rest)
      | _, true, .item :: _ => (entryItems? fuel rest).map fun (xs, rest) => (.list p xs, rest)
      | _, _, _ => if p = {} then none else some (.scalar p .plain "", rest)

def nodeUnless? (omitted block entry : Bool) :
    (fuel : Nat) → List Token → Option (Tree × List Token)
  | 0, _ => none
  | fuel + 1, ts => if omitted then some (absent, ts) else node? block entry fuel ts

def items? : (fuel : Nat) → List Token → Option (List Tree × List Token)
  | fuel + 1, .item :: rest => do
    let (x, rest) ← nodeUnless? (endsItem rest) true false fuel rest
    let (xs, rest) ← items? fuel rest
    return (x :: xs, rest)
  | _, .closeBlock :: rest => some ([], rest)
  | _, _ => none

/-- The items of a list at the column of its key. -/
def entryItems? : (fuel : Nat) → List Token → Option (List Tree × List Token)
  | fuel + 1, .item :: rest => do
    let (x, rest) ← nodeUnless? (endsItem rest || endsBlockEntry rest) true false fuel rest
    let (xs, rest) ← entryItems? fuel rest
    return (x :: xs, rest)
  | _, rest => some ([], rest)

def entries? : (fuel : Nat) → List Token → Option (List (Tree × Tree) × List Token)
  | fuel + 1, .key :: rest => do
    let (k, rest) ← nodeUnless? (endsBlockEntry rest) true true fuel rest
    let (v, rest) ← match rest with
      | .value :: rest => nodeUnless? (endsBlockEntry rest) true true fuel rest
      | rest => some (absent, rest)
    let (xs, rest) ← entries? fuel rest
    return ((k, v) :: xs, rest)
  | _, .closeBlock :: rest => some ([], rest)
  | _, _ => none

/-- The value of an entry inside brackets. -/
def flowValue? (closing : Token) : (fuel : Nat) → List Token → Option (Tree × List Token)
  | fuel + 1, .value :: rest => nodeUnless? (endsInFlow closing rest) false false fuel rest
  | _, rest => some (absent, rest)

/-- The items between square brackets. An entry among them is a map of its own; behind a key that is
left out the next token does not count. -/
def flowItems? : (fuel : Nat) → (first : Bool) → List Token → Option (List Tree × List Token)
  | 0, _, _ => none
  | _, _, .closeList :: rest => some ([], rest)
  | fuel + 1, first, ts => do
    match ← member? first ts with
    | .closeList :: rest => return ([], rest)
    | .key :: rest =>
      let omitted := endsInFlow .closeList rest || rest.head? = some .value
      let (k, rest) ← nodeUnless? omitted false false fuel rest
      let (v, rest) ← flowValue? .closeList fuel (if omitted then rest.drop 1 else rest)
      let (xs, rest) ← flowItems? fuel false rest
      return (.map {} [(k, v)] :: xs, rest)
    | rest =>
      let (x, rest) ← node? false false fuel rest
      let (xs, rest) ← flowItems? fuel false rest
      return (x :: xs, rest)

def flowEntries? : (fuel : Nat) → (first : Bool) → List Token →
    Option (List (Tree × Tree) × List Token)
  | 0, _, _ => none
  | _, _, .closeMap :: rest => some ([], rest)
  | fuel + 1, first, ts => do
    match ← member? first ts with
    | .closeMap :: rest => return ([], rest)
    | .key :: rest =>
      let omitted := endsInFlow .closeMap rest || rest.head? = some .value
      let (k, rest) ← nodeUnless? omitted false false fuel rest
      let (v, rest) ← flowValue? .closeMap fuel rest
      let (xs, rest) ← flowEntries? fuel false rest
      return ((k, v) :: xs, rest)
    | rest =>
      let (k, rest) ← node? false false fuel rest
      let (xs, rest) ← flowEntries? fuel false rest
      return ((k, absent) :: xs, rest)

end

end Tree

/-- The prefixes that handles of tags stand for. -/
abbrev Handles := List (String × String)

namespace Handles

/-- The handles known without a directive. -/
def standard : Handles := [("!", "!"), ("!!", "tag:yaml.org,2002:")]

/-- The handles of a document. Its version is stated once at most, and each handle as well. -/
def ofDirectives? (directives : List Token) : Option Handles := do
  let versions := directives.filterMap fun
    | .version major minor => some (major, minor)
    | _ => none
  let handles := directives.filterMap fun
    | .tagHandle handle uri => some (handle, uri)
    | _ => none
  guard (versions.length ≤ 1 && versions.all (· ∈ [(1, 1), (1, 2)]))
  guard (handles.map Prod.fst).Nodup
  return handles ++ standard

end Handles

/-- A document: the meaning of its handles, and its tree. -/
structure Source where
  handles : Handles
  tree : Tree

namespace Source

def isDirective : Token → Bool
  | .version _ _ | .tagHandle _ _ => true
  | _ => false

def isEmpty (ts : List Token) : Bool :=
  ts.head?.all fun t => isDirective t || t = .documentStart || t = .documentEnd

/-- The only document of a text. A text of no document is one of a node left out. -/
def ofTokens? (ts : List Token) : Option Source := do
  let handles ← Handles.ofDirectives? (ts.takeWhile isDirective)
  let fuel := 3 * ts.length + 3
  let (tree, rest) ← match ts, ts.dropWhile isDirective with
    | [], _ => some (.absent, [])
    | _, .documentStart :: rest => Tree.nodeUnless? (isEmpty rest) true false fuel rest
    | t :: _, rest => if isDirective t then none else Tree.node? true false fuel rest
  if rest.all (· = .documentEnd) then some ⟨handles, tree⟩ else none

end Source

end BlockDiagram.Yaml
