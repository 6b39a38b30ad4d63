import BlockDiagram.Data.Datum
import BlockDiagram.Decimal.Style
/-! Writing JSON: one value a line, each level two spaces deeper. -/

namespace BlockDiagram.Json

/-- Numbers have a fraction or an exponent with a sign; what is not finite is written as null. -/
def numberStyle : DecimalStyle where
  positional power := -5 ≤ power && power < 16
  wholeSuffix := ".0"
  plus := "+"
  nan := "null"
  infinity := "null"
  negativeInfinity := "null"

def escape (c : Char) : List Char :=
  match c with
  | '"' => ['\\', '"']
  | '\\' => ['\\', '\\']
  | '\n' => ['\\', 'n']
  | '\r' => ['\\', 'r']
  | '\t' => ['\\', 't']
  | c =>
    if c.toNat = 8 then ['\\', 'b']
    else if c.toNat = 12 then ['\\', 'f']
    else if c.toNat < 32 then
      let digits := Nat.toDigits 16 c.toNat
      ['\\', 'u'] ++ List.replicate (4 - digits.length) '0' ++ digits
    else [c]

def quote (s : String) : String := "\"" ++ String.ofList (s.toList.flatMap escape) ++ "\""

def indent (level : Nat) : String := String.ofList (List.replicate (2 * level) ' ')

/-- Members between brackets, one a line, for a value at the given level. -/
def bracket (level : Nat) (opening closing : String) (members : List String) : String :=
  if members.isEmpty then opening ++ closing
  else
    opening ++ "\n" ++ ",\n".intercalate (members.map (indent (level + 1) ++ ·)) ++ "\n"
      ++ indent level ++ closing

mutual

/-- The text of a value that stands at the given level. -/
def writeAt (level : Nat) : Datum → String
  | .flag b => if b then "true" else "false"
  | .natural n => toString n
  | .real x => numberStyle.render x
  | .text s => quote s
  | .list items => bracket level "[" "]" (writeItems (level + 1) items)
  | .record fields => bracket level "\x7b" "\x7d" (writeFields (level + 1) fields)

def writeItems (level : Nat) : List Datum → List String
  | [] => []
  | d :: rest => writeAt level d :: writeItems level rest

def writeFields (level : Nat) : List (String × Datum) → List String
  | [] => []
  | (name, d) :: rest => (quote name ++ ": " ++ writeAt level d) :: writeFields level rest

end

def write (d : Datum) : String := writeAt 0 d

end BlockDiagram.Json
