import BlockDiagram.Data.Node
import BlockDiagram.Digits
import BlockDiagram.Scalar
/-! Tokens of JSON text. -/

namespace BlockDiagram.Json

inductive Token where
  | openList | closeList | openMap | closeMap | comma | colon
  /-- A string; none if it holds half of a surrogate pair, which can be skipped but not read. -/
  | string (s : Option String)
  | leaf (l : Leaf)
  deriving DecidableEq, Repr

/-- A character of a string, or a UTF-16 code unit that is half of one. -/
inductive Piece where
  | char (c : Char)
  | half (unit : Nat)
  deriving DecidableEq, Repr

namespace Piece

def ofUnit (unit : Nat) : Piece :=
  if 0xd800 ≤ unit && unit < 0xe000 then half unit else char (Char.ofNat unit)

/-- The text of the pieces, in which each first half must be followed by a second one. -/
def join? : List Piece → Option (List Char)
  | [] => some []
  | char c :: rest => (join? rest).map (c :: ·)
  | half high :: half low :: rest =>
    if high < 0xdc00 && 0xdc00 ≤ low then
      (join? rest).map (Char.ofNat (0x10000 + (high - 0xd800) * 0x400 + (low - 0xdc00)) :: ·)
    else none
  | half _ :: _ => none

end Piece

def isBlank (c : Char) : Bool := c = ' ' || c = '\t' || c = '\n' || c = '\r'

/-- What a backslash makes of the character behind it. -/
def escaped? : Char → Option Char
  | '"' => some '"'
  | '\\' => some '\\'
  | '/' => some '/'
  | 'b' => some '\x08'
  | 'f' => some '\x0c'
  | 'n' => some '\n'
  | 'r' => some '\r'
  | 't' => some '\t'
  | _ => none

/-- The pieces up to the closing quote, and the text behind it. -/
def string? : List Char → Option (List Piece × List Char)
  | [] => none
  | '"' :: rest => some ([], rest)
  | '\\' :: 'u' :: a :: b :: c :: d :: rest => do
    let unit ← Digits.nat? 16 [a, b, c, d]
    let (pieces, rest) ← string? rest
    return (Piece.ofUnit unit :: pieces, rest)
  | '\\' :: c :: rest => do
    let c ← escaped? c
    let (pieces, rest) ← string? rest
    return (.char c :: pieces, rest)
  | c :: rest =>
    if c.toNat < 0x20 then none
    else do
      let (pieces, rest) ← string? rest
      return (.char c :: pieces, rest)

def isNumberChar (c : Char) : Bool :=
  Literal.isDigit c || c = '-' || c = '+' || c = '.' || c = 'e' || c = 'E'

/-- Digits without needless zeros in front, then nothing but a fraction and an exponent of at least
one digit each. -/
def isNumber (cs : List Char) : Bool :=
  let body := match cs with
    | '-' :: rest => rest
    | _ => cs
  let whole := body.takeWhile Literal.isDigit
  let rest := body.dropWhile Literal.isDigit
  let fractionOk := match rest with
    | '.' :: more => !(more.takeWhile Literal.isDigit).isEmpty
    | _ => true
  !whole.isEmpty && !(whole.head? == some '0' && whole.length ≠ 1) && fractionOk
    && (Literal.magnitude? body).isSome

/-- The leaf of a number. Whole numbers of a word are naturals; one too large for a real is
unreadable. -/
def number? (cs : List Char) : Option Leaf :=
  if isNumber cs then
    if cs.all Literal.isDigit && Literal.natOfDigits cs < wordSize then
      some (.ofNatural (Literal.natOfDigits cs))
    else
      (Literal.ofChars? cs).map fun l =>
        if l.toFloat.isFinite then .ofReal l.toFloat else .unreadable
  else none

def token? : List Char → Option (Token × List Char)
  | '[' :: rest => some (.openList, rest)
  | ']' :: rest => some (.closeList, rest)
  | '\x7b' :: rest => some (.openMap, rest)
  | '\x7d' :: rest => some (.closeMap, rest)
  | ',' :: rest => some (.comma, rest)
  | ':' :: rest => some (.colon, rest)
  | '"' :: rest => (string? rest).map fun (pieces, rest) =>
    (.string ((Piece.join? pieces).map String.ofList), rest)
  | 't' :: 'r' :: 'u' :: 'e' :: rest => some (.leaf (.ofFlag true), rest)
  | 'f' :: 'a' :: 'l' :: 's' :: 'e' :: rest => some (.leaf (.ofFlag false), rest)
  | 'n' :: 'u' :: 'l' :: 'l' :: rest => some (.leaf .null, rest)
  | cs => (number? (cs.takeWhile isNumberChar)).map fun l => (.leaf l, cs.dropWhile isNumberChar)

/-- The tokens of a text. Each takes a character or more. -/
def tokensWithin? : (fuel : Nat) → List Char → Option (List Token)
  | 0, _ => none
  | fuel + 1, cs =>
    match cs.dropWhile isBlank with
    | [] => some []
    | start => do
      let (t, rest) ← token? start
      return t :: (← tokensWithin? fuel rest)

def tokens? (cs : List Char) : Option (List Token) := tokensWithin? (cs.length + 1) cs

end BlockDiagram.Json
