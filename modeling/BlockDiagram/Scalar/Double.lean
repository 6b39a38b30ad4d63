import BlockDiagram.Decimal.Style
import BlockDiagram.Scalar
/-! Double-precision scalars, on which diagrams run. -/

namespace BlockDiagram

instance doubleScalar : Scalar Float where
  ofNat := Float.ofNat
  lt a b := a < b
  floor := Float.floor
  toIndex x := x.toUInt64.toNat
  isFinite := Float.isFinite
  le a b := a ≤ b
  eq a b := a == b
  abs := Float.abs
  apply
    | .abs => Float.abs
    | .floor => Float.floor
    | .ceiling => Float.ceil
    | .exp => Float.exp
    | .ln => Float.log
    | .log10 => Float.log10
    | .sqrt => Float.sqrt
    | .sin => Float.sin
    | .cos => Float.cos
    | .tan => Float.tan
    | .arcsin => Float.asin
    | .arccos => Float.acos
    | .arctan => Float.atan
  apply₂
    | .power => Float.pow
    | .atan2 => Float.atan2
    | .quotient => Float.div
  bottom := -1 / 0
  top := 1 / 0
  text := DecimalStyle.plain.render

end BlockDiagram
