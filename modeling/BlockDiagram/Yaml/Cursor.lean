/-! Characters of YAML text, and cursors that know their line and column. -/

namespace BlockDiagram.Yaml

/-- The characters a text may hold. -/
def isAllowed (c : Char) : Bool :=
  let n := c.toNat
  n = 0x09 || n = 0x0a || n = 0x0d || (0x20 ≤ n && n ≤ 0x7e) || n = 0x85
    || (0xa0 ≤ n && n ≤ 0xfffd) || 0x10000 ≤ n

def isBlank (c : Char) : Bool := c = ' ' || c = '\t'

def isBreak (c : Char) : Bool :=
  c = '\n' || c = '\r' || c = '\u0085' || c = '\u2028' || c = '\u2029'

/-- The character a line break is read as. -/
def breakChar (c : Char) : Char := if c = '\u2028' || c = '\u2029' then c else '\n'

/-- Letters of names, such as those of anchors. -/
def isNameChar (c : Char) : Bool :=
  ('0' ≤ c && c ≤ '9') || ('A' ≤ c && c ≤ 'Z') || ('a' ≤ c && c ≤ 'z') || c = '_' || c = '-'

/-- A place in a text: what follows it, and where it is. -/
structure Cursor where
  rest : List Char
  index : Nat := 0
  line : Nat := 0
  column : Nat := 0

namespace Cursor

def peek? (c : Cursor) : Option Char := c.rest.head?

/-- The character after the next `n` ones satisfies a test; past the end it does not. -/
def testAt (c : Cursor) (n : Nat) (p : Char → Bool) : Bool := (c.rest[n]?).any p

/-- A blank, a line break or the end of the text is `n` characters ahead. -/
def spaceAt (c : Cursor) (n : Nat) : Bool := (c.rest[n]?).all fun x => isBlank x || isBreak x

/-- The cursor behind the next character, or behind a whole line break. -/
def step (c : Cursor) : Cursor :=
  match c.rest with
  | [] => c
  | '\r' :: '\n' :: rest => ⟨rest, c.index + 2, c.line + 1, 0⟩
  | x :: rest =>
    if isBreak x then ⟨rest, c.index + 1, c.line + 1, 0⟩
    else ⟨rest, c.index + 1, c.line, c.column + 1⟩

theorem step_shorter {c : Cursor} (h : c.rest ≠ []) : c.step.rest.length < c.rest.length := by
  unfold step
  split
  · exact absurd ‹_› h
  · rename_i hr
    simp only [hr, List.length_cons]
    omega
  · rename_i hr
    split <;> simp only [hr, List.length_cons, Nat.lt_succ_self]

def stepBy : Nat → Cursor → Cursor
  | 0, c => c
  | n + 1, c => stepBy n c.step

/-- The characters up to the first that fails a test, and the cursor there. No line break may pass.
-/
def spanWhile (p : Char → Bool) (c : Cursor) : List Char × Cursor :=
  let run := c.rest.takeWhile p
  (run, { c with
    rest := c.rest.dropWhile p, index := c.index + run.length, column := c.column + run.length })

def skipWhile (p : Char → Bool) (c : Cursor) : Cursor := (c.spanWhile p).2

def lineEnd (c : Cursor) : Cursor := c.skipWhile fun x => !isBreak x

/-- A mark of three characters stands alone at the start of a line. -/
def atMark (c : Cursor) (x : Char) : Bool :=
  c.column = 0 && c.rest.take 3 = [x, x, x] && c.spaceAt 3

def atDocumentMark (c : Cursor) : Bool := c.atMark '-' || c.atMark '.'

end Cursor

end BlockDiagram.Yaml
