import BlockDiagram.Yaml.Token
/-! Lexing: the tokens of a text. Indentation opens and closes collections, and a scalar turns out
to be a key when a colon follows it on the same line. -/

namespace BlockDiagram.Yaml

/-- A place where a key may have begun. -/
structure KeyMark where
  /-- The number of tokens before it. -/
  number : Nat
  index : Nat
  line : Nat
  column : Nat
  /-- Nothing but a key may stand here. -/
  required : Bool

/-- A lexer in the midst of a text. -/
structure Lexer where
  cursor : Cursor
  /-- Tokens, last one first. -/
  tokens : List Token := []
  count : Nat := 0
  /-- Columns of the open blocks, innermost first. -/
  indents : List Nat := []
  /-- A key may begin at the next token. -/
  keyAllowed : Bool := true
  /-- The mark of the innermost bracket, or of the block outside all brackets. -/
  mark : Option KeyMark := none
  /-- The marks of the surrounding brackets. -/
  outerMarks : List (Option KeyMark) := []

namespace Lexer

def inFlow (s : Lexer) : Bool := !s.outerMarks.isEmpty

/-- The least column that is inside the innermost block. -/
def least (s : Lexer) : Nat := (s.indents.head?.map (· + 1)).getD 0

def emit (s : Lexer) (t : Token) : Lexer := { s with tokens := t :: s.tokens, count := s.count + 1 }

/-- Puts a token before those that follow the first `number` ones. -/
def insert (s : Lexer) (number : Nat) (t : Token) : Lexer :=
  let later := s.count - number
  { s with tokens := s.tokens.take later ++ t :: s.tokens.drop later, count := s.count + 1 }

def stepBy (s : Lexer) (n : Nat) : Lexer := { s with cursor := s.cursor.stepBy n }

/-- Opens a block if a column lies inside the innermost one, with its token before the later ones.
-/
def openBlock (s : Lexer) (column number : Nat) (t : Token) : Lexer :=
  if !s.inFlow && s.least ≤ column then
    { s.insert number t with indents := column :: s.indents }
  else s

def closeBlocks (s : Lexer) (inside : Nat → Bool) : Lexer :=
  if s.inFlow then s
  else
    let closed := s.indents.takeWhile fun i => !inside i
    { s with
      tokens := closed.map (fun _ => Token.closeBlock) ++ s.tokens
      count := s.count + closed.length
      indents := s.indents.drop closed.length }

/-- Gives up a mark, which must not be required. -/
def release? (mark : Option KeyMark) : Option Unit :=
  if mark.any KeyMark.required then none else some ()

def dropMark? (s : Lexer) : Option Lexer := do
  release? s.mark
  return { s with mark := none }

/-- Marks this place if a key may begin here. -/
def setMark? (s : Lexer) : Option Lexer := do
  if s.keyAllowed then
    release? s.mark
    let required := !s.inFlow && s.indents.head? = some s.cursor.column
    return { s with
      mark := some ⟨s.count, s.cursor.index, s.cursor.line, s.cursor.column, required⟩ }
  else return s

/-- A key ends on the line where it began, after no more than 1024 characters. -/
def KeyMark.isStale (c : Cursor) (k : KeyMark) : Bool := k.line < c.line || k.index + 1024 < c.index

def freshMark? (c : Cursor) (mark : Option KeyMark) : Option (Option KeyMark) :=
  if mark.any (KeyMark.isStale c) then (release? mark).map fun _ => none else some mark

/-- Gives up the marks that lie too far back. -/
def dropStale? (s : Lexer) : Option Lexer := do
  return { s with
    mark := ← freshMark? s.cursor s.mark
    outerMarks := ← s.outerMarks.mapM (freshMark? s.cursor) }

/-- Passes blanks, comments and line ends. A byte order mark may begin a line. A tab does not pass
where it could be taken for indentation. -/
def skipSpace (inFlow : Bool) : (fuel : Nat) → (keyAllowed : Bool) → Cursor → Cursor × Bool
  | 0, keyAllowed, c => (c, keyAllowed)
  | fuel + 1, keyAllowed, c =>
    let c := if c.column = 0 && c.testAt 0 (· = '\ufeff') then c.step else c
    let c := c.skipWhile fun x => x = ' ' || x = '\t' && (inFlow || !keyAllowed)
    let c := if c.testAt 0 (· = '#') then c.lineEnd else c
    if c.testAt 0 isBreak then skipSpace inFlow fuel (keyAllowed || !inFlow) c.step
    else (c, keyAllowed)

/-- A directive or the mark of a document, which ends all blocks. -/
def boundary? (s : Lexer) (t : Token) (after : Cursor) : Option Lexer := do
  let s ← (s.closeBlocks fun _ => false).dropMark?
  return { s.emit t with cursor := after, keyAllowed := false }

def openFlow? (s : Lexer) (t : Token) : Option Lexer := do
  let s ← s.setMark?
  return { (s.emit t).stepBy 1 with
    keyAllowed := true, mark := none, outerMarks := s.mark :: s.outerMarks }

def closeFlow? (s : Lexer) (t : Token) : Option Lexer := do
  let s ← s.dropMark?
  return { (s.emit t).stepBy 1 with
    keyAllowed := false, mark := s.outerMarks.head?.getD none, outerMarks := s.outerMarks.drop 1 }

def comma? (s : Lexer) : Option Lexer := do
  let s ← s.dropMark?
  return { (s.emit .comma).stepBy 1 with keyAllowed := true }

/-- An indicator that begins an entry of a block: outside brackets it must stand where a key may
begin. -/
def entry? (s : Lexer) (block t : Token) (keyAllowed : Bool) : Option Lexer := do
  guard (s.inFlow || s.keyAllowed)
  let s ← (s.openBlock s.cursor.column s.count block).dropMark?
  return { (s.emit t).stepBy 1 with keyAllowed }

/-- A colon: what was marked turns out to be a key, or the value belongs to a key with an indicator.
-/
def value? (s : Lexer) : Option Lexer :=
  match s.mark with
  | some k =>
    let s := (s.insert k.number .key).openBlock k.column k.number .openBlockMap
    some { (s.emit .value).stepBy 1 with mark := none, keyAllowed := false }
  | none => do
    guard (s.inFlow || s.keyAllowed)
    let s := s.openBlock s.cursor.column s.count .openBlockMap
    return { (s.emit .value).stepBy 1 with keyAllowed := !s.inFlow }

def marked? (s : Lexer) (read : Option (Token × Cursor)) : Option Lexer := do
  let s ← s.setMark?
  let (t, after) ← read
  return { s.emit t with cursor := after, keyAllowed := false }

def blockScalar? (s : Lexer) (style : Style) : Option Lexer := do
  let s ← s.dropMark?
  let (text, after) ← Yaml.blockScalar? (style = .folded) s.least s.cursor.step
  return { s.emit (.scalar style (String.ofList text)) with cursor := after, keyAllowed := true }

def plain? (s : Lexer) : Option Lexer := do
  let s ← s.setMark?
  let p ← plainFrom s.inFlow s.least [] .none s.cursor
  return { s.emit (.scalar .plain (String.ofList p.text)) with
    cursor := p.after, keyAllowed := p.lineEnded }

def token? (s : Lexer) (x : Char) : Option Lexer :=
  let c := s.cursor
  let quoted := fun single => quotedFrom single [] .none (c.rest.length + 1) c.step
  if c.column = 0 && x = '%' then do
    let (t, after) ← Token.directive? c
    s.boundary? t after
  else if c.atMark '-' then s.boundary? .documentStart (c.stepBy 3)
  else if c.atMark '.' then s.boundary? .documentEnd (c.stepBy 3)
  else if x = '-' && c.spaceAt 1 then s.entry? .openBlockList .item true
  else if x = '?' && (s.inFlow || c.spaceAt 1) then s.entry? .openBlockMap .key (!s.inFlow)
  else if x = ':' && (s.inFlow || c.spaceAt 1) then s.value?
  else if (x = '|' || x = '>') && !s.inFlow then
    s.blockScalar? (if x = '|' then .literal else .folded)
  else
    match x with
    | '[' => s.openFlow? .openList
    | '\x7b' => s.openFlow? .openMap
    | ']' => s.closeFlow? .closeList
    | '\x7d' => s.closeFlow? .closeMap
    | ',' => s.comma?
    | '*' => s.marked? ((Token.name? c).map fun (name, after) => (.reference name, after))
    | '&' => s.marked? ((Token.name? c).map fun (name, after) => (.anchor name, after))
    | '!' => s.marked? (Token.tag? s.inFlow c)
    | '\'' => s.marked? ((quoted true).map fun (cs, after) =>
      (.scalar .singleQuoted (String.ofList cs), after))
    | '"' => s.marked? ((quoted false).map fun (cs, after) =>
      (.scalar .doubleQuoted (String.ofList cs), after))
    | '#' | '|' | '>' | '%' | '@' | '\x60' => none
    | x => if isBlank x || isBreak x then none else s.plain?

/-- Reads the tokens that are left. Each takes a character or more, and so does each line that is
passed. -/
def run? : (fuel : Nat) → Lexer → Option (List Token)
  | 0, _ => none
  | fuel + 1, s => do
    let (c, keyAllowed) := skipSpace s.inFlow (fuel + 1) s.keyAllowed s.cursor
    let s ← dropStale? { s with cursor := c, keyAllowed }
    match c.peek? with
    | none => return ((← (s.closeBlocks fun _ => false).dropMark?).tokens).reverse
    | some x => run? fuel (← (s.closeBlocks (· ≤ c.column)).token? x)

end Lexer

def tokens? (text : String) : Option (List Token) :=
  let cs := text.toList
  if cs.all isAllowed then Lexer.run? (cs.length + 1) { cursor := ⟨cs, 0, 0, 0⟩ } else none

end BlockDiagram.Yaml
