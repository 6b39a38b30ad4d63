/-! Decimals: digits and a power of ten, and the decimal that stands for a binary value. -/

namespace BlockDiagram

/-- The number `digits · 10 ^ exponent`. -/
structure Decimal where
  digits : Nat
  exponent : Int
  deriving DecidableEq, Repr

/-- A positive binary value `mantissa · 2 ^ exponent` of limited precision. On a `narrowBelow` value
the next smaller one is half as far away as the next larger one. -/
structure BinaryMagnitude where
  mantissa : Nat
  exponent : Int
  narrowBelow : Bool
  deriving DecidableEq, Repr

/-- A binary floating-point number taken apart. -/
inductive BinaryValue where
  | nan
  | infinite (negative : Bool)
  | zero (negative : Bool)
  | finite (negative : Bool) (magnitude : BinaryMagnitude)
  deriving DecidableEq, Repr

namespace BinaryValue

/-- The parts of a 64-bit number: a sign bit, eleven of exponent, fifty-two of fraction. -/
def ofBits (bits : Nat) : BinaryValue :=
  let negative : Bool := 0x8000000000000000 ≤ bits
  let biased : Nat := bits / 0x10000000000000 % 0x800
  let fraction : Nat := bits % 0x10000000000000
  if biased = 0x7ff then
    if fraction = 0 then .infinite negative else .nan
  else if biased = 0 then
    if fraction = 0 then .zero negative else .finite negative ⟨fraction, -1074, false⟩
  else
    .finite negative
      ⟨0x10000000000000 + fraction, (biased : Int) - 1075, fraction = 0 && biased ≠ 1⟩

def ofFloat (x : Float) : BinaryValue := ofBits x.toBits.toNat

end BinaryValue

/-- A nonnegative rational as numerator and denominator. -/
structure Quotient where
  num : Nat
  den : Nat
  deriving DecidableEq, Repr

namespace Quotient

/-- `n · base ^ k`. -/
def scaled (n base : Nat) (k : Int) : Quotient :=
  if 0 ≤ k then ⟨n * Nat.pow base k.toNat, 1⟩ else ⟨n, Nat.pow base (-k).toNat⟩

def le (a b : Quotient) : Bool := a.num * b.den ≤ b.num * a.den

def lt (a b : Quotient) : Bool := a.num * b.den < b.num * a.den

def round (a : Quotient) : Nat :=
  let floor := a.num / a.den
  let rest := a.num % a.den
  if a.den < 2 * rest || (2 * rest = a.den && floor % 2 = 1) then floor + 1 else floor

/-- The exponent `e` with `10 ^ (e - 1) ≤ a < 10 ^ e`, for a positive rational. -/
def decimalExponent (a : Quotient) : Int :=
  let digitCount := fun n : Nat => (Nat.toDigits 10 n).length
  if a.den ≤ a.num then digitCount (a.num / a.den)
  else 1 - (digitCount ((a.den - 1) / a.num) : Int)

end Quotient

namespace BinaryMagnitude

/-- The value in quarters of its last place. -/
def quarters (b : BinaryMagnitude) : Nat := 4 * b.mantissa

def toQuotient (b : BinaryMagnitude) : Quotient := .scaled b.mantissa 2 b.exponent

/-- A number rounds to the value: it lies between the midpoints towards the neighbours, which
themselves round to an even mantissa. -/
def isRoundedFrom (b : BinaryMagnitude) (x : Quotient) : Bool :=
  let low := Quotient.scaled (b.quarters - if b.narrowBelow then 1 else 2) 2 (b.exponent - 2)
  let high := Quotient.scaled (b.quarters + 2) 2 (b.exponent - 2)
  if b.mantissa % 2 = 0 then low.le x && x.le high else low.lt x && x.lt high

/-- The multiple of `10 ^ k` nearest the value that rounds to it, if there is one. -/
def onGrid? (b : BinaryMagnitude) (k : Int) : Option Decimal :=
  let v := b.toQuotient
  let unit := Quotient.scaled 1 10 k
  let steps : Quotient := ⟨v.num * unit.den, v.den * unit.num⟩
  let below := steps.num / steps.den
  let nearest := steps.round
  let other := if nearest = below then below + 1 else below
  [nearest, other].find? (fun d => b.isRoundedFrom (.scaled d 10 k)) |>.map fun d => ⟨d, k⟩

/-- Tries `count` more digits than `used`, coarsest grid first. -/
def shortestFrom (b : BinaryMagnitude) (top : Int) (used : Nat) : Nat → Decimal
  | 0 => ⟨b.toQuotient.round, 0⟩
  | count + 1 =>
    match b.onGrid? (top - (used + 1)) with
    | some d => d
    | none => b.shortestFrom top (used + 1) count

end BinaryMagnitude

namespace Decimal

def trim (d : Decimal) : Decimal :=
  if h : d.digits ≠ 0 ∧ d.digits % 10 = 0 then trim ⟨d.digits / 10, d.exponent + 1⟩ else d
termination_by d.digits
decreasing_by exact Nat.div_lt_self (Nat.pos_of_ne_zero h.1) (by decide)

/-- The decimal with the fewest digits that rounds to the value, and of those the nearest. Seventeen
digits tell any two values apart. -/
def shortest (b : BinaryMagnitude) : Decimal :=
  (b.shortestFrom b.toQuotient.decimalExponent 0 17).trim

end Decimal

end BlockDiagram
