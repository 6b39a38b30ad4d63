import BlockDiagram.Decimal
/-! Digits: numbers as they are written. Whole numbers in a radix up to thirty-six, and decimal literals
with the floating-point number nearest to each. -/

namespace BlockDiagram

namespace Digits

def value? (c : Char) : Option Nat :=
  if '0' ≤ c && c ≤ '9' then some (c.toNat - '0'.toNat)
  else if 'a' ≤ c && c ≤ 'z' then some (c.toNat - 'a'.toNat + 10)
  else if 'A' ≤ c && c ≤ 'Z' then some (c.toNat - 'A'.toNat + 10)
  else none

def below? (radix : Nat) (c : Char) : Option Nat := (value? c).filter (· < radix)

/-- The number that a run of at least one digit stands for. -/
def nat? (radix : Nat) (cs : List Char) : Option Nat :=
  if cs.isEmpty then none
  else cs.foldlM (fun n c => (below? radix c).map (radix * n + ·)) 0

end Digits

/-- A written number: a sign, digits and a power of ten. -/
structure Literal where
  negative : Bool
  magnitude : Decimal
  deriving DecidableEq, Repr

namespace Literal

def isDigit (c : Char) : Bool := '0' ≤ c && c ≤ '9'

def natOfDigits (cs : List Char) : Nat := cs.foldl (fun n c => 10 * n + (c.toNat - '0'.toNat)) 0

def exponent? : List Char → Option Int
  | '-' :: cs => (unsigned? cs).map fun n => -(n : Int)
  | '+' :: cs => (unsigned? cs).map Int.ofNat
  | cs => (unsigned? cs).map Int.ofNat
where
  unsigned? (cs : List Char) : Option Nat :=
    if cs.isEmpty || !cs.all isDigit then none else some (natOfDigits cs)

/-- Digits with a point that may stand anywhere, then possibly an exponent. At least one digit comes
before the exponent. -/
def magnitude? (cs : List Char) : Option Decimal :=
  let whole := cs.takeWhile isDigit
  let rest := cs.dropWhile isDigit
  let (fraction, rest) := match rest with
    | '.' :: more => (more.takeWhile isDigit, more.dropWhile isDigit)
    | _ => ([], rest)
  if whole.isEmpty && fraction.isEmpty then none
  else
    let power? := match rest with
      | [] => some 0
      | c :: more => if c = 'e' || c = 'E' then exponent? more else none
    power?.map fun power => ⟨natOfDigits (whole ++ fraction), power - fraction.length⟩

/-- A magnitude behind a sign that may be missing. -/
def ofChars? : List Char → Option Literal
  | '-' :: cs => (magnitude? cs).map fun m => ⟨true, m⟩
  | '+' :: cs => (magnitude? cs).map fun m => ⟨false, m⟩
  | cs => (magnitude? cs).map fun m => ⟨false, m⟩

/-- The nearest floating-point number; infinite beyond the largest one. The two outer cases only
keep absurd exponents from being computed with. -/
def toFloat (l : Literal) : Float :=
  let m := l.magnitude
  let size := (toString m.digits).length + m.exponent
  let x :=
    if m.digits = 0 || size < -400 then 0
    else if 400 < size then 1 / 0
    else Float.ofScientific m.digits (m.exponent < 0) m.exponent.natAbs
  if l.negative then -x else x

end Literal

/-- The number a text stands for: a literal, or a word for infinity or for no number, in any case.
-/
def floatOfText? (s : String) : Option Float :=
  match Literal.ofChars? s.toList with
  | some l => some l.toFloat
  | none =>
    let (negative, word) := match s.toList with
      | '-' :: cs => (true, cs)
      | '+' :: cs => (false, cs)
      | cs => (false, cs)
    let word := String.ofList (word.map Char.toLower)
    let x? : Option Float :=
      if word = "inf" || word = "infinity" then some (1 / 0)
      else if word = "nan" then some (0 / 0)
      else none
    x?.map fun x => if negative then -x else x

end BlockDiagram
