import BlockDiagram.Yaml.Scalar
/-! Tokens of YAML text, and those whose form does not depend on what surrounds them. -/

namespace BlockDiagram.Yaml

inductive Token where
  | version (major minor : Nat)
  /-- What a handle of tags stands for. -/
  | tagHandle (handle uri : String)
  | documentStart | documentEnd
  /-- Collections that indentation opens and closes. -/
  | openBlockList | openBlockMap | closeBlock
  | openList | closeList | openMap | closeMap
  | item | comma | key | value
  | reference (name : String)
  | anchor (name : String)
  | tag (handle suffix : String)
  | scalar (style : Style) (text : String)
  deriving DecidableEq, Repr

namespace Token

/-- A name behind an indicator, up to a character that may follow one. -/
def name? (c : Cursor) : Option (String × Cursor) :=
  let (name, after) := c.step.spanWhile isNameChar
  let ends := fun x => x ∈ ['?', ':', ',', ']', '\x7d', '%', '@', '\x60']
  if !name.isEmpty && (after.spaceAt 0 || after.testAt 0 ends) then some (String.ofList name, after)
  else none

/-- Characters of tags; some only in a tag between angle brackets. -/
def isUriChar (bracketed : Bool) (c : Char) : Bool :=
  isNameChar c || "; / ? : @ & = + $ . % ! ~ * ' ( )".toList.contains c && c ≠ ' '
    || bracketed && (c = ',' || c = '[' || c = ']')

def octet? : List Char → Option (Nat × List Char)
  | '%' :: a :: b :: rest => (Digits.nat? 16 [a, b]).map fun n => (n, rest)
  | _ => none

/-- The bits of the octets that continue a character. -/
def continued? : Nat → Nat → List Char → Option (Nat × List Char)
  | 0, bits, cs => some (bits, cs)
  | n + 1, bits, cs => do
    let (octet, cs) ← octet? cs
    if octet / 64 = 2 then continued? n (bits * 64 + octet % 64) cs else none

/-- The text of a tag, in which characters may be written as their octets. -/
def unescaped? : (fuel : Nat) → List Char → Option (List Char)
  | 0, _ => none
  | _, [] => some []
  | fuel + 1, cs@('%' :: _) => do
    let (octet, rest) ← octet? cs
    let (more, bits) ←
      if octet < 0x80 then some (0, octet)
      else if octet / 32 = 6 then some (1, octet % 32)
      else if octet / 16 = 14 then some (2, octet % 16)
      else if octet / 8 = 30 then some (3, octet % 8)
      else none
    let (n, rest) ← continued? more bits rest
    return Char.ofNat n :: (← unescaped? fuel rest)
  | fuel + 1, c :: cs => (unescaped? fuel cs).map (c :: ·)

def uri? (bracketed : Bool) (c : Cursor) : Option (String × Cursor) := do
  let (run, c) := c.spanWhile (isUriChar bracketed)
  return (String.ofList (← unescaped? (run.length + 1) run), c)

/-- A tag: one in angle brackets, one behind a handle, or a local one. -/
def tag? (inFlow : Bool) (c : Cursor) : Option (Token × Cursor) := do
  let (name, afterName) := c.step.spanWhile isNameChar
  let name := String.ofList name
  let (handle, suffix, after) ←
    if c.testAt 1 (· = '<') then do
      let (suffix, after) ← uri? true (c.stepBy 2)
      guard (suffix ≠ "" && after.testAt 0 (· = '>'))
      pure ("", suffix, after.step)
    else if afterName.testAt 0 (· = '!') then do
      let (suffix, after) ← uri? false afterName.step
      guard (suffix ≠ "")
      pure ("!" ++ name ++ "!", suffix, after)
    else do
      let (suffix, after) ← uri? false afterName
      if name ++ suffix = "" then pure ("", "!", after) else pure ("!", name ++ suffix, after)
  guard (after.spaceAt 0 || inFlow && after.testAt 0 (· = ','))
  return (.tag handle suffix, after)

/-- A number of a version: at most nine digits. -/
def versionNumber? (c : Cursor) : Option (Nat × Cursor) := do
  let (digits, c) := c.spanWhile Literal.isDigit
  guard (digits.length ≤ 9)
  return (← Digits.nat? 10 digits, c)

def handle? (c : Cursor) : Option (String × Cursor) := do
  guard (c.testAt 0 (· = '!'))
  let (name, after) := c.step.spanWhile isNameChar
  if after.testAt 0 (· = '!') then some ("!" ++ String.ofList name ++ "!", after.step)
  else if name.isEmpty then some ("!", after)
  else none

/-- A directive: a line behind a percent sign. -/
def directive? (c : Cursor) : Option (Token × Cursor) := do
  let (name, c) := c.step.spanWhile isNameChar
  guard (c.spaceAt 0)
  let c := c.skipWhile isBlank
  let (token, c) ←
    if name = "YAML".toList then do
      let (major, c) ← versionNumber? c
      guard (c.testAt 0 (· = '.'))
      let (minor, c) ← versionNumber? c.step
      pure (.version major minor, c)
    else if name = "TAG".toList then do
      let (handle, c) ← handle? c
      guard (c.testAt 0 isBlank)
      let (uri, c) ← uri? true (c.skipWhile isBlank)
      guard (uri ≠ "" && c.spaceAt 0)
      pure (.tagHandle handle uri, c)
    else none
  let c := c.skipWhile isBlank
  let c := if c.testAt 0 (· = '#') then c.lineEnd else c
  guard (c.spaceAt 0)
  return (token, c.step)

end Token

end BlockDiagram.Yaml
