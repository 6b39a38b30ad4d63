import BlockDiagram.Data.Node
import BlockDiagram.Digits
import BlockDiagram.Scalar
import BlockDiagram.Yaml.Scalar
/-! Resolution: what a scalar reads as, by its words, its style and its tag. -/

namespace BlockDiagram.Yaml

def nullWords : List String := ["null", "Null", "NULL", "~"]

def flagOfText? (s : String) : Option Bool :=
  if s ∈ ["true", "True", "TRUE"] then some true
  else if s ∈ ["false", "False", "FALSE"] then some false
  else none

/-- Digits behind a needless zero, which are no number. -/
def isZeroPadded (s : String) : Bool :=
  let digits := match s.toList with
    | '-' :: rest | '+' :: rest => rest
    | cs => cs
  match digits with
  | '0' :: rest => !rest.isEmpty && rest.all Literal.isDigit
  | _ => false

/-- The radix that a mark in front of the digits states. -/
def radixOf? : Char → Option Nat
  | 'x' => some 16
  | 'o' => some 8
  | 'b' => some 2
  | _ => none

/-- Digits of ten, or of the radix in front of them. -/
def unsigned? (cs : List Char) : Option Nat :=
  match cs with
  | '0' :: mark :: digits =>
    match radixOf? mark with
    | some radix => Digits.nat? radix digits
    | none => Digits.nat? 10 cs
  | _ => Digits.nat? 10 cs

def whole? (s : String) : Option (Bool × Nat) :=
  if isZeroPadded s then none
  else match s.toList with
    | '-' :: cs => (unsigned? cs).map fun n => (true, n)
    | '+' :: cs => (unsigned? cs).map fun n => (false, n)
    | cs => (unsigned? cs).map fun n => (false, n)

/-- A whole number that fits a word. -/
def naturalOfText? (s : String) : Option Nat :=
  match whole? s with
  | some (false, n) => if n < wordSize then some n else none
  | _ => none

/-- A decimal number that is finite once rounded, or a word for an infinity or for no number. -/
def realOfText? (s : String) : Option Float :=
  let cs := s.toList
  let unsigned := match cs with
    | '+' :: rest => rest
    | _ => cs
  let infinity := fun w => w ∈ [".inf", ".Inf", ".INF"]
  if infinity (String.ofList unsigned) then some (1 / 0)
  else if cs.head? = some '-' && infinity (String.ofList (cs.drop 1)) then some (-1 / 0)
  else if s ∈ [".nan", ".NaN", ".NAN"] then some (0 / 0)
  else if cs.head? = some '+' && (unsigned.head? = some '+' || unsigned.head? = some '-') then none
  else ((Literal.ofChars? unsigned).map Literal.toFloat).filter Float.isFinite

/-- What a whole number reads as where any type is allowed. Beyond words of 64 bits there is a range
in which it cannot be read, and beyond that it is a real. -/
def freeWhole? (s : String) (negative : Bool) (n : Nat) : Option Free :=
  let small := if negative then 2 * n ≤ wordSize else n < wordSize
  let large := wordSize * wordSize < (if negative then 2 * n else n + 1)
  if small then
    if negative then some (.real (Literal.toFloat ⟨n ≠ 0, ⟨n, 0⟩⟩)) else some (.natural n)
  else if large then some ((realOfText? s).elim (.text s) .real)
  else none

/-- What plain words read as where any type is allowed. -/
def freePlain? (s : String) : Option Free :=
  if s = "" || s ∈ nullWords then some .null
  else match flagOfText? s, whole? s with
    | some b, _ => some (.flag b)
    | none, some (negative, n) => freeWhole? s negative n
    | none, none =>
      if isZeroPadded s then some (.text s) else some ((realOfText? s).elim (.text s) .real)

/-- The tag of a type that every document knows. -/
def coreTag (type : String) : String := "tag:yaml.org,2002:" ++ type

/-- What a scalar reads as where any type is allowed: a tag of its own has no meaning. -/
def free? (tag : Option String) (style : Style) (s : String) : Option Free :=
  match tag with
  | none => if style = .plain then freePlain? s else some (.text s)
  | some tag =>
    if tag.startsWith "!" then none
    else if tag = coreTag "bool" then (flagOfText? s).map .flag
    else if tag = coreTag "int" then (whole? s).bind fun (negative, n) =>
      (freeWhole? s negative n).filter fun
        | .natural _ => true
        | _ => negative && 2 * n ≤ wordSize
    else if tag = coreTag "float" then (realOfText? s).map .real
    else if tag = coreTag "null" then if s ∈ nullWords then some .null else none
    else some (.text s)

/-- What a scalar reads as. Only plain words are read as other than text, and literal ones with the
tag of their type. -/
def leafOf (tag : Option String) (style : Style) (s : String) : Leaf :=
  let typed := fun {β : Type} (type : String) (read : String → Option β) =>
    if style = .plain || style = .literal && tag = some (coreTag type) then read s else none
  { text := some s
    real := typed "float" realOfText?
    natural := typed "int" naturalOfText?
    flag := typed "bool" flagOfText?
    free := free? tag style s
    absent :=
      if style ≠ .plain then some false
      else if tag = some (coreTag "null") then if s ∈ nullWords then some true else none
      else some (tag = none && (s = "" || s ∈ nullWords))
    empty := style = .plain && s = "" }

end BlockDiagram.Yaml
