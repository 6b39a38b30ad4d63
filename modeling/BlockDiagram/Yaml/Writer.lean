import BlockDiagram.Data.Datum
import BlockDiagram.Decimal.Style
import BlockDiagram.Yaml.Resolution
/-! Writing YAML: collections as indented blocks, and texts in the plainest style that reads back.
-/

namespace BlockDiagram.Yaml

/-- Numbers have a fraction or an exponent, whose plus sign is left out. -/
def numberStyle : DecimalStyle where
  positional power := -5 ≤ power && power < 16
  wholeSuffix := ".0"
  plus := ""
  nan := ".nan"
  infinity := ".inf"
  negativeInfinity := "-.inf"

def isPrintable (c : Char) : Bool :=
  let n := c.toNat
  n = 0x0a || (0x20 ≤ n && n ≤ 0x7e) || (0xa0 ≤ n && n ≤ 0xfffd && n ≠ 0xfeff) || 0x10000 ≤ n

def isSpace (c : Char) : Bool := isBlank c || isBreak c

/-- A colon before white space or a comment sign behind it occurs. -/
def endsPlain (afterSpace : Bool) : List Char → Bool
  | [] => false
  | c :: rest =>
    c = ':' && rest.head?.all isSpace || c = '#' && afterSpace || endsPlain (isSpace c) rest

def hasIndicator (cs : List Char) : Bool :=
  let first := cs.head?
  cs.take 3 = ['-', '-', '-'] || cs.take 3 = ['.', '.', '.']
    || first.any (fun c => ",[]&*!|>'\"%@\x60\x7b\x7d".toList.contains c)
    || first.any (fun c => c = '?' || c = '-') && (cs.drop 1).head?.all isSpace
    || endsPlain true cs

/-- A character of the first class is followed by one of the second. -/
def hasPair (p q : Char → Bool) : List Char → Bool
  | a :: b :: rest => p a && q b || hasPair p q (b :: rest)
  | _ => false

/-- A space before a line break would be lost, and not every character stands for itself. -/
def needsEscape (cs : List Char) : Bool := hasPair (· = ' ') isBreak cs || !cs.all isPrintable

def singleQuotable (cs : List Char) : Bool := !hasPair isBreak (· = ' ') cs && !needsEscape cs

/-- The text reads back if it is written without quotes: no other type and no indicator is seen in
it. -/
def plainWritable (s : String) : Bool :=
  let cs := s.toList
  !isZeroPadded s && freePlain? s == some (.text s) && singleQuotable cs && !cs.any isBreak
    && cs.head? ≠ some ' ' && cs.getLast? ≠ some ' ' && !hasIndicator cs

/-- Spaces behind line breaks, where the next line begins. -/
def indentLines (indent : Nat) (lineStart : Bool) : List Char → List Char
  | [] => []
  | c :: rest =>
    if isBreak c then c :: indentLines indent true rest
    else if lineStart then List.replicate indent ' ' ++ c :: indentLines indent false rest
    else c :: indentLines indent false rest

def singleQuote (indent : Nat) (cs : List Char) : String :=
  let body := cs.flatMap fun c => if c = '\'' then ['\'', '\''] else [c]
  String.ofList ('\'' :: indentLines indent false (body ++ ['\'']))

/-- The letter that stands for a character behind a backslash. -/
def escapeLetter? (c : Char) : Option Char :=
  [('\x00', '0'), ('\x07', 'a'), ('\x08', 'b'), ('\t', 't'), ('\n', 'n'), ('\x0b', 'v'),
   ('\x0c', 'f'), ('\r', 'r'), ('\x1b', 'e'), ('"', '"'), ('\\', '\\'), ('\u0085', 'N'),
   ('\u2028', 'L'), ('\u2029', 'P')].lookup c

def doubleQuotedChar (c : Char) : List Char :=
  match escapeLetter? c with
  | some letter => ['\\', letter]
  | none =>
    if isPrintable c then [c]
    else
      let digits := (Nat.toDigits 16 c.toNat).map Char.toUpper
      let (mark, width) := if c.toNat < 0x100 then ('x', 2) else if c.toNat < 0x10000 then ('u', 4)
        else ('U', 8)
      ['\\', mark] ++ List.replicate (width - digits.length) '0' ++ digits

def doubleQuote (cs : List Char) : String :=
  String.ofList ('"' :: cs.flatMap doubleQuotedChar ++ ['"'])

/-- The text as lines. The header states the indentation if it cannot be seen, and what becomes of
the line breaks at the end. -/
def literalBlock (indent : Nat) (cs : List Char) : String :=
  let stated := if cs.head?.any fun c => c = ' ' || isBreak c then "2" else ""
  let chomping := match cs.reverse with
    | a :: b :: _ => if !isBreak a then "-" else if isBreak b then "+" else ""
    | [a] => if isBreak a then "+" else "-"
    | [] => "-"
  "|" ++ stated ++ chomping ++ "\n" ++ String.ofList (indentLines indent true cs)

def writeText (indent : Nat) (s : String) : String :=
  let cs := s.toList
  if cs.contains '\n' then
    if needsEscape cs || cs.getLast? = some ' ' then doubleQuote cs else literalBlock indent cs
  else if plainWritable s then s
  else if singleQuotable cs then singleQuote indent cs
  else doubleQuote cs

def endLine (s : String) : String := if s.toList.getLast?.any isBreak then s else s ++ "\n"

def spaces (n : Nat) : String := String.ofList (List.replicate n ' ')

/-- The entries of a collection below each other. All but the first are indented. -/
def block (indent : Nat) (entries : List String) : String :=
  (spaces indent).intercalate (entries.map endLine)

mutual

/-- The text of a value behind its key or indicator, whose collection is indented by `indent`. -/
def writeAt (indent : Nat) : Datum → String
  | .flag b => if b then "true" else "false"
  | .natural n => toString n
  | .real x => numberStyle.render x
  | .text s => writeText (indent + 2) s
  | .list items =>
    if items.isEmpty then "[]" else block (indent + 2) (writeItems (indent + 2) items)
  | .record fields =>
    if fields.isEmpty then "\x7b\x7d" else block (indent + 2) (writeFields (indent + 2) fields)

def writeItems (indent : Nat) : List Datum → List String
  | [] => []
  | d :: rest => ("- " ++ writeAt indent d) :: writeItems indent rest

/-- The fields of a record. A list stands at the column of its key, and a record deeper. -/
def writeFields (indent : Nat) : List (String × Datum) → List String
  | [] => []
  | (name, d) :: rest =>
    let key := writeText (indent + 2) name ++ ":"
    let entry := match d with
      | .list (x :: xs) =>
        key ++ "\n" ++ spaces indent ++ block indent (writeItems indent (x :: xs))
      | .record (x :: xs) =>
        let fields := writeFields (indent + 2) (x :: xs)
        key ++ "\n" ++ spaces (indent + 2) ++ block (indent + 2) fields
      | d => key ++ " " ++ writeAt indent d
    entry :: writeFields indent rest

end

def write (d : Datum) : String :=
  endLine (match d with
    | .list (x :: xs) => block 0 (writeItems 0 (x :: xs))
    | .record (x :: xs) => block 0 (writeFields 0 (x :: xs))
    | d => writeAt 0 d)

end BlockDiagram.Yaml
