import BlockDiagram.Digits
import BlockDiagram.Yaml.Cursor
/-! Scalars: the text of plain, quoted and block scalars. -/

namespace BlockDiagram.Yaml

/-- The ways to write a scalar. -/
inductive Style where
  | plain | singleQuoted | doubleQuoted
  /-- Every line break counts. -/
  | literal
  /-- Line breaks between words are spaces. -/
  | folded
  deriving DecidableEq, Repr

/-- White space between two words of a scalar. -/
inductive Gap where
  | none
  | blanks (cs : List Char)
  /-- Line breaks; the blanks around them do not count. -/
  | breaks (first : Char) (more : List Char)
  /-- Line breaks behind one that was escaped. -/
  | escaped (more : List Char)
  deriving DecidableEq, Repr

namespace Gap

def addBlank (gap : Gap) (c : Char) : Gap :=
  match gap with
  | none => blanks [c]
  | blanks cs => blanks (cs ++ [c])
  | g => g

def addBreak (gap : Gap) (c : Char) : Gap :=
  match gap with
  | none | blanks _ => breaks (breakChar c) []
  | breaks first more => breaks first (more ++ [breakChar c])
  | escaped more => escaped (more ++ [breakChar c])

/-- What the gap contributes: one line break is a space, and of several the first is dropped. -/
def text : Gap → List Char
  | none => []
  | blanks cs => cs
  | breaks '\n' [] => [' ']
  | breaks '\n' more => more
  | breaks first more => first :: more
  | escaped more => more

def isBroken : Gap → Bool
  | none | blanks _ => false
  | breaks _ _ | escaped _ => true

end Gap

/-- A character that ends a plain scalar inside brackets. -/
def isFlowEnd (c : Char) : Bool :=
  c = ',' || c = '[' || c = ']' || c = '\x7b' || c = '\x7d'

/-- A plain scalar: its text, what follows it, and whether a line has ended since. -/
structure PlainScalar where
  text : List Char
  after : Cursor
  lineEnded : Bool

/-- Reads a plain scalar on. Its lines must be indented by `indent`, except inside brackets; `read`
is what has been read, last character first. -/
def plainFrom (inFlow : Bool) (indent : Nat) (read : List Char) (gap : Gap) (c : Cursor) :
    Option PlainScalar :=
  let done := some ⟨read.reverse, c, gap.isBroken⟩
  match h : c.rest with
  | [] => done
  | x :: _ =>
    have _shorter := Cursor.step_shorter (c := c) (by simp [h])
    if isBreak x then plainFrom inFlow indent read (gap.addBreak x) c.step
    else if isBlank x then
      if gap.isBroken && c.column < indent && x = '\t' then none
      else plainFrom inFlow indent read (gap.addBlank x) c.step
    else if gap ≠ .none && (!inFlow && c.column < indent || c.atDocumentMark || x = '#') then done
    else if x = ':' && c.spaceAt 1 then done
    else if inFlow && x = ':' && c.testAt 1 (fun y => y = '?' || isFlowEnd y) then none
    else if inFlow && isFlowEnd x then done
    else plainFrom inFlow indent (x :: (gap.text.reverse ++ read)) .none c.step
termination_by c.rest.length

/-- What a backslash makes of the character behind it, and how many hexadecimal digits follow. -/
def escape? : Char → Option (Char × Nat)
  | '0' => some ('\x00', 0)
  | 'a' => some ('\x07', 0)
  | 'b' => some ('\x08', 0)
  | 't' | '\t' => some ('\t', 0)
  | 'n' => some ('\n', 0)
  | 'v' => some ('\x0b', 0)
  | 'f' => some ('\x0c', 0)
  | 'r' => some ('\r', 0)
  | 'e' => some ('\x1b', 0)
  | ' ' => some (' ', 0)
  | '"' => some ('"', 0)
  | '/' => some ('/', 0)
  | '\\' => some ('\\', 0)
  | 'N' => some ('\u0085', 0)
  | '_' => some ('\u00a0', 0)
  | 'L' => some ('\u2028', 0)
  | 'P' => some ('\u2029', 0)
  | 'x' => some ('\x00', 2)
  | 'u' => some ('\x00', 4)
  | 'U' => some ('\x00', 8)
  | _ => none

def charOfHex? (digits : List Char) : Option Char := do
  let n ← Digits.nat? 16 digits
  if n.isValidChar then some (Char.ofNat n) else none

/-- The character of an escape sequence behind its backslash, and the number of its characters. -/
def escapeSequence? (cs : List Char) : Option (Char × Nat) := do
  let (c, digits) ← escape? (← cs.head?)
  if digits = 0 then some (c, 1)
  else
    let run := (cs.drop 1).take digits
    guard (run.length = digits)
    return (← charOfHex? run, digits + 1)

/-- Reads a quoted scalar on, up to its closing quote; `read` is what has been read, last character
first. -/
def quotedFrom (single : Bool) (read : List Char) (gap : Gap) : (fuel : Nat) → Cursor →
    Option (List Char × Cursor)
  | 0, _ => none
  | fuel + 1, c => do
    let x ← c.peek?
    let joined := gap.text.reverse ++ read
    if isBreak x then quotedFrom single read (gap.addBreak x) fuel c.step
    else if isBlank x then quotedFrom single read (gap.addBlank x) fuel c.step
    else if c.atDocumentMark then none
    else if single then
      if x ≠ '\'' then quotedFrom single (x :: joined) .none fuel c.step
      else if c.testAt 1 (· = '\'') then quotedFrom single ('\'' :: joined) .none fuel (c.stepBy 2)
      else some (joined.reverse, c.step)
    else if x = '"' then some (joined.reverse, c.step)
    else if x = '\\' then
      if c.testAt 1 isBreak then quotedFrom single joined (.escaped []) fuel (c.stepBy 2)
      else
        let (y, length) ← escapeSequence? (c.rest.drop 1)
        quotedFrom single (y :: joined) .none fuel (c.stepBy (length + 1))
    else quotedFrom single (x :: joined) .none fuel c.step

/-- What becomes of the line breaks at the end of a block scalar. -/
inductive Chomping where
  | strip | clip | keep
  deriving DecidableEq, Repr

/-- The lines of a block scalar read so far, last character first: their text, the break that ended
the last one, the breaks behind it, and whether the last one began with a blank. -/
structure BlockLines where
  text : List Char := []
  ending : Option Char := none
  empty : List Char := []
  blankStart : Bool := false

namespace BlockLines

/-- The text before a new line, which begins with a blank or not. -/
def joined (b : BlockLines) (folded blank : Bool) : List Char :=
  if folded && b.ending = some '\n' && !b.blankStart && !blank then
    if b.empty.isEmpty then ' ' :: b.text else b.empty ++ b.text
  else b.empty ++ b.ending.toList ++ b.text

def chomped (b : BlockLines) : Chomping → List Char
  | .strip => b.text
  | .clip => b.ending.toList ++ b.text
  | .keep => b.empty ++ b.ending.toList ++ b.text

end BlockLines

/-- Reads the lines of a block scalar that are indented by `indent`. -/
def blockFrom (folded : Bool) (indent : Nat) (b : BlockLines) : (fuel : Nat) → Cursor →
    Option (BlockLines × Cursor)
  | 0, c => some (b, c)
  | fuel + 1, c =>
    match c.peek? with
    | none => some (b, c)
    | some x =>
      if c.column < indent && x = ' ' then blockFrom folded indent b fuel c.step
      else if c.column < indent && x = '\t' then none
      else if isBreak x then
        blockFrom folded indent { b with empty := breakChar x :: b.empty } fuel c.step
      else if c.column ≠ indent then some (b, c)
      else
        let blank := isBlank x
        let (line, c) := c.spanWhile fun y => !isBreak y
        let b : BlockLines :=
          ⟨line.reverse ++ b.joined folded blank, c.peek?.map breakChar, [], blank⟩
        blockFrom folded indent b fuel c.step

/-- Passes spaces and line breaks before the first line whose indentation is not known yet, and
finds the widest indentation and the breaks. -/
def blockStart (widest : Nat) (breaks : List Char) : (fuel : Nat) → Cursor →
    Option (Nat × List Char × Cursor)
  | 0, c => some (widest, breaks, c)
  | fuel + 1, c =>
    let c := c.skipWhile (· = ' ')
    let widest := max widest c.column
    match c.peek? with
    | some '\t' => none
    | some x =>
      if isBreak x then blockStart widest (breakChar x :: breaks) fuel c.step
      else some (widest, breaks, c)
    | none => some (widest, breaks, c)

/-- What a block scalar states behind its indicator, and the number of characters this takes. -/
structure BlockHeader where
  chomping : Chomping := .clip
  indent : Option Nat := none
  length : Nat := 0

namespace BlockHeader

def chomping? : Option Char → Option Chomping
  | some '+' => some .keep
  | some '-' => some .strip
  | _ => none

def indent? (c : Option Char) : Option Nat :=
  (c.filter Literal.isDigit).map fun x => x.toNat - '0'.toNat

/-- Chomping and indentation may come in any order; an indentation is not zero. -/
def ofChars? (cs : List Char) : Option BlockHeader :=
  let second := cs[1]?
  let header : BlockHeader := match chomping? cs.head?, indent? cs.head? with
    | some k, _ => ⟨k, indent? second, if (indent? second).isSome then 2 else 1⟩
    | none, some n =>
      ⟨(chomping? second).getD .clip, some n, if (chomping? second).isSome then 2 else 1⟩
    | none, none => {}
  if header.indent = some 0 then none else some header

end BlockHeader

/-- Reads a block scalar behind its indicator, in a block whose indentation is one less than
`least`. -/
def blockScalar? (folded : Bool) (least : Nat) (c : Cursor) : Option (List Char × Cursor) := do
  let header ← BlockHeader.ofChars? c.rest
  let c := (c.stepBy header.length).skipWhile isBlank
  let c := if c.peek? = some '#' then c.lineEnd else c
  guard (c.spaceAt 0)
  let c := c.step
  let fuel := c.rest.length + 1
  let (indent, breaks, c) ← match header.indent with
    | some n => pure (least - 1 + n, [], c)
    | none => do
      let (widest, breaks, c) ← blockStart 0 [] fuel c
      pure (max widest (max least 1), breaks, c)
  let (b, c) ← blockFrom folded indent { empty := breaks } fuel c
  return ((b.chomped header.chomping).reverse, c)

end BlockDiagram.Yaml
