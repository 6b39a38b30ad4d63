import BlockDiagram.Decimal
/-! Styles: how a format writes floating-point numbers. -/

namespace BlockDiagram

/-- The choices a format makes; the digits are always the fewest that read back. -/
structure DecimalStyle where
  /-- Written without exponent, by the power of ten of the first digit. -/
  positional : Int → Bool
  /-- What follows a whole number written without exponent. -/
  wholeSuffix : String
  /-- The sign of an exponent that is not negative. -/
  plus : String
  nan : String
  infinity : String
  negativeInfinity : String

namespace DecimalStyle

def zeros (n : Nat) : String := String.ofList (List.replicate n '0')

/-- Digits with the point after the first `point` of them, padded with zeros where there is none. -/
def pointed (style : DecimalStyle) (digits : String) (point : Int) : String :=
  if point ≤ 0 then "0." ++ zeros (-point).toNat ++ digits
  else
    let n := point.toNat
    if digits.length ≤ n then digits ++ zeros (n - digits.length) ++ style.wholeSuffix
    else String.ofList (digits.toList.take n) ++ "." ++ String.ofList (digits.toList.drop n)

/-- One digit before the point, and a power of ten. -/
def scientific (style : DecimalStyle) (digits : String) (power : Int) : String :=
  let rest := String.ofList (digits.toList.drop 1)
  let fraction := if rest.isEmpty then "" else "." ++ rest
  let sign := if power < 0 then "-" else style.plus
  String.ofList (digits.toList.take 1) ++ fraction ++ "e" ++ sign ++ toString power.natAbs

def renderDecimal (style : DecimalStyle) (d : Decimal) : String :=
  let digits := toString d.digits
  let point := digits.length + d.exponent
  if style.positional (point - 1) then style.pointed digits point
  else style.scientific digits (point - 1)

def sign (negative : Bool) : String := if negative then "-" else ""

def render (style : DecimalStyle) (x : Float) : String :=
  match BinaryValue.ofFloat x with
  | .nan => style.nan
  | .infinite negative => if negative then style.negativeInfinity else style.infinity
  | .zero negative => sign negative ++ "0" ++ style.wholeSuffix
  | .finite negative b => sign negative ++ style.renderDecimal (Decimal.shortest b)

/-- The plain text of messages: never an exponent, nothing after a whole number. -/
def plain : DecimalStyle where
  positional _ := true
  wholeSuffix := ""
  plus := ""
  nan := "NaN"
  infinity := "inf"
  negativeInfinity := "-inf"

end DecimalStyle

/-- The text with a given number of decimal places; a half goes to the even neighbour. -/
def fixedText (places : Nat) (x : Float) : String :=
  match BinaryValue.ofFloat x with
  | .nan => "NaN"
  | .infinite negative => DecimalStyle.sign negative ++ "inf"
  | .zero negative => DecimalStyle.sign negative ++ body 0
  | .finite negative b =>
    let v := b.toQuotient
    DecimalStyle.sign negative ++ body (Quotient.round ⟨v.num * Nat.pow 10 places, v.den⟩)
where
  body (n : Nat) : String :=
    let fraction := toString (n % Nat.pow 10 places)
    let padding := DecimalStyle.zeros (places - fraction.length)
    toString (n / Nat.pow 10 places) ++ "." ++ padding ++ fraction

end BlockDiagram
