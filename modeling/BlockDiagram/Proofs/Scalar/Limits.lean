import BlockDiagram.Block
import BlockDiagram.Scalar.Double
/-! Limits: the bounds of a signal without limits are infinite, so they bound nothing. -/

namespace BlockDiagram

class Unbounded (α : Type) [Scalar α] : Prop where
  bottom_not_finite : Arithmetic.isFinite (Scalar.bottom : α) = false
  top_not_finite : Arithmetic.isFinite (Scalar.top : α) = false
  not_lt_bottom : ∀ x : α, Arithmetic.lt x Scalar.bottom = false
  not_top_lt : ∀ x : α, Arithmetic.lt Scalar.top x = false

open Float.Model in
theorem double_not_top_lt (x : Float) : decide ((1 / 0 : Float) < x) = false := by
  have htop : (1 / 0 : Float).toModel.unpack = .infinity .positive := by rfl
  change decide (decide (((1 / 0 : Float).toModel.lt x.toModel) = true) = true) = false
  unfold Float.Model.lt UnpackedFloat.lt
  rw [htop]
  cases x.toModel.unpack with
  | infinity s => cases s <;> rfl
  | notANumber => rfl
  | zero s => rfl
  | finite s m e h => rfl

open Float.Model in
theorem double_not_lt_bottom (x : Float) : decide (x < (-1 / 0 : Float)) = false := by
  have hbottom : (-1 / 0 : Float).toModel.unpack = .infinity .negative := by rfl
  change decide (decide ((x.toModel.lt (-1 / 0 : Float).toModel) = true) = true) = false
  unfold Float.Model.lt UnpackedFloat.lt
  rw [hbottom]
  cases x.toModel.unpack with
  | infinity s => cases s <;> rfl
  | notANumber => rfl
  | zero s => rfl
  | finite s m e h => rfl

instance : Unbounded Float where
  bottom_not_finite := by decide +kernel
  top_not_finite := by decide +kernel
  not_lt_bottom := double_not_lt_bottom
  not_top_lt := double_not_top_lt

end BlockDiagram
