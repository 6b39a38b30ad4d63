import BlockDiagram.Block
import BlockDiagram.Scalar.Double
/-! Clamping: what a limiter does to a scalar, and the laws of comparison by which the result is between
the limits. -/

namespace BlockDiagram

variable {α : Type} [Scalar α]

/-- The scalar held between two limits. -/
def clamp (limits : α × α) (x : α) : α :=
  if Arithmetic.lt x limits.1 then limits.1 else if Arithmetic.lt limits.2 x then limits.2 else x

/-- Two limits, the lower one first. -/
def ascending (a b : α) : α × α := if Arithmetic.lt b a then (b, a) else (a, b)

theorem BlockKind.limiterBetween_eq (a b : α) :
    limiterBetween a b = .limiter (ascending a b).1 (ascending a b).2 := by
  unfold limiterBetween ascending
  split <;> rfl

/-- The scalar is comparable with itself; others are no numbers. -/
def isNumber (x : α) : Bool := Scalar.eq x x

/-- Comparison orders the numbers. What is not finite and not above something finite is below every
number, or is no number. -/
class Comparable (α : Type) [Scalar α] : Prop where
  lt_asymm : ∀ a b : α, Arithmetic.lt a b = true → Arithmetic.lt b a = false
  le_of_not_lt : ∀ a b : α, isNumber a = true → isNumber b = true → Arithmetic.lt b a = false →
    Scalar.le a b = true
  number_of_finite : ∀ a : α, Arithmetic.isFinite a = true → isNumber a = true
  not_lt_of_infinite : ∀ a b x : α, Arithmetic.isFinite a = false → Arithmetic.isFinite b = true →
    Arithmetic.lt b a = false → Arithmetic.lt x a = false
  infinite_not_lt : ∀ a b x : α, Arithmetic.isFinite b = false → Arithmetic.isFinite a = true →
    Arithmetic.lt b a = false → Arithmetic.lt b x = false

section Comparable

variable [Comparable α] {a b x : α}

/-- The scalar is not outside the limits; a limit that is not finite allows everything. -/
def Within (limits : α × α) (x : α) : Prop :=
  (Arithmetic.isFinite limits.1 = true → Scalar.le limits.1 x = true) ∧
    (Arithmetic.isFinite limits.2 = true → Scalar.le x limits.2 = true)

theorem le_refl_of_number (h : isNumber x = true) : Scalar.le x x = true := by
  refine Comparable.le_of_not_lt x x h h ?_
  cases hlt : Arithmetic.lt x x with
  | false => rfl
  | true => exact hlt.symm.trans (Comparable.lt_asymm x x hlt)

theorem ascending_not_lt (a b : α) : Arithmetic.lt (ascending a b).2 (ascending a b).1 = false := by
  unfold ascending
  split
  · exact Comparable.lt_asymm b a ‹_›
  · rename_i hlt
    simpa using hlt

theorem clamp_within (h : isNumber (clamp (ascending a b) x) = true) :
    Within (ascending a b) (clamp (ascending a b) x) := by
  have hordered := ascending_not_lt a b
  generalize ascending a b = limits at h hordered ⊢
  obtain ⟨lower, upper⟩ := limits
  unfold clamp at h ⊢
  dsimp only at h hordered ⊢
  split at h
  · rename_i hlow
    rw [if_pos hlow]
    refine ⟨fun _ => le_refl_of_number h, fun hupper => ?_⟩
    exact Comparable.le_of_not_lt _ _ h (Comparable.number_of_finite _ hupper) hordered
  · rename_i hlow
    rw [if_neg hlow]
    split at h
    · rename_i hhigh
      rw [if_pos hhigh]
      refine ⟨fun hlower => ?_, fun _ => le_refl_of_number h⟩
      exact Comparable.le_of_not_lt _ _ (Comparable.number_of_finite _ hlower) h hordered
    · rename_i hhigh
      rw [if_neg hhigh]
      refine ⟨fun hlower => ?_, fun hupper => ?_⟩
      · exact Comparable.le_of_not_lt _ _ (Comparable.number_of_finite _ hlower) h (by simpa using hlow)
      · exact Comparable.le_of_not_lt _ _ h (Comparable.number_of_finite _ hupper) (by simpa using hhigh)

/-- Beside a finite limit, one that is not finite never acts. -/
theorem inactive_of_infinite
    (hfinite : (Arithmetic.isFinite a || Arithmetic.isFinite b) = true) :
    (Arithmetic.isFinite (ascending a b).1 = false → Arithmetic.lt x (ascending a b).1 = false) ∧
      (Arithmetic.isFinite (ascending a b).2 = false → Arithmetic.lt (ascending a b).2 x = false) := by
  have hordered := ascending_not_lt a b
  have hone : Arithmetic.isFinite (ascending a b).1 = true ∨
      Arithmetic.isFinite (ascending a b).2 = true := by
    rw [Bool.or_eq_true] at hfinite
    unfold ascending
    split
    · exact hfinite.symm
    · exact hfinite
  constructor
  · intro hlower
    refine Comparable.not_lt_of_infinite _ _ x hlower (hone.resolve_left ?_) hordered
    rw [hlower]
    exact Bool.false_ne_true
  · intro hupper
    refine Comparable.infinite_not_lt _ _ x hupper (hone.resolve_right ?_) hordered
    rw [hupper]
    exact Bool.false_ne_true

end Comparable

section Double

open Float.Model

theorem compare_swap (a b : UnpackedFloat) : b.compare a = (a.compare b).map Ordering.swap := by
  cases a with
  | notANumber => cases b <;> rfl
  | infinity s =>
      cases b with
      | infinity t => cases s <;> cases t <;> rfl
      | _ => cases s <;> rfl
  | zero s =>
      cases b with
      | infinity t => cases t <;> rfl
      | finite t m e h => cases t <;> rfl
      | _ => rfl
  | finite s m e h =>
      cases b with
      | infinity t => cases t <;> cases s <;> rfl
      | finite t m' e' h' =>
          have hm : compare m m' = (compare m' m).swap := Std.OrientedCmp.eq_swap
          have he : compare e e' = (compare e' e).swap := Std.OrientedCmp.eq_swap
          have hthen : (compare e e').then (compare m m') = ((compare e' e).then (compare m' m)).swap := by
            rw [hm, he, Ordering.swap_then]
          cases s <;> cases t
          case positive.positive =>
            change some ((compare e' e).then (compare m' m)) =
              some ((compare e e').then (compare m m')).swap
            rw [hthen, Ordering.swap_swap]
          case negative.negative =>
            change some ((compare e' e).then (compare m' m)).swap =
              some ((compare e e').then (compare m m')).swap.swap
            rw [hthen, Ordering.swap_swap]
          all_goals rfl
      | _ => cases s <;> rfl

/-- The comparison of doubles; there is none with what is no number. -/
def doubleOrder (a b : Float) : Option Ordering := a.toModel.unpack.compare b.toModel.unpack

theorem doubleOrder_swap (a b : Float) : doubleOrder b a = (doubleOrder a b).map Ordering.swap :=
  compare_swap _ _

theorem double_lt (a b : Float) : Arithmetic.lt a b = (doubleOrder a b == some .lt) := by
  change decide (decide (a.toModel.lt b.toModel = true) = true) = _
  rw [Bool.decide_eq_true, Bool.decide_eq_true]
  rfl

theorem double_le (a b : Float) : Scalar.le a b = (doubleOrder a b).any Ordering.isLE := by
  change decide (decide (a.toModel.le b.toModel = true) = true) = _
  rw [Bool.decide_eq_true, Bool.decide_eq_true]
  rfl

theorem isNumber_double (a : Float) : isNumber a = !a.toModel.unpack.isNaN := by
  have heq : isNumber a = (doubleOrder a a == some .eq) := rfl
  rw [heq, doubleOrder]
  cases a.toModel.unpack with
  | notANumber => rfl
  | infinity s => cases s <;> rfl
  | zero s => rfl
  | finite s m e h =>
      have hsame : (compare e e).then (compare m m) = .eq := by
        rw [show compare e e = .eq from Std.ReflCmp.compare_self,
          show compare m m = .eq from Std.ReflCmp.compare_self]
        rfl
      cases s with
      | positive =>
          change (some ((compare e e).then (compare m m)) == some .eq) = true
          rw [hsame]
          rfl
      | negative =>
          change (some ((compare e e).then (compare m m)).swap == some .eq) = true
          rw [hsame]
          rfl

theorem doubleOrder_of_numbers {a b : Float} (ha : isNumber a = true) (hb : isNumber b = true) :
    ∃ o, doubleOrder a b = some o := by
  rw [isNumber_double] at ha hb
  rw [doubleOrder]
  generalize a.toModel.unpack = u at ha ⊢
  generalize b.toModel.unpack = v at hb ⊢
  cases u with
  | notANumber => cases ha
  | infinity s =>
      cases v with
      | notANumber => cases hb
      | _ => cases s <;> exact ⟨_, rfl⟩
  | zero s =>
      cases v with
      | notANumber => cases hb
      | infinity t => cases t <;> exact ⟨_, rfl⟩
      | finite t m e h => cases t <;> exact ⟨_, rfl⟩
      | zero t => exact ⟨_, rfl⟩
  | finite s m e h =>
      cases v with
      | notANumber => cases hb
      | zero t => cases s <;> exact ⟨_, rfl⟩
      | _ t => cases s <;> cases t <;> exact ⟨_, rfl⟩

instance : Comparable Float where
  lt_asymm := by
    intro a b h
    rw [double_lt, beq_iff_eq] at h
    rw [double_lt, doubleOrder_swap, h]
    rfl
  le_of_not_lt := by
    intro a b ha hb h
    obtain ⟨o, ho⟩ := doubleOrder_of_numbers ha hb
    rw [double_lt, doubleOrder_swap, ho] at h
    rw [double_le, ho]
    cases o with
    | gt => cases h
    | _ => rfl
  number_of_finite := by
    intro a h
    change a.toModel.unpack.isFinite = true at h
    rw [isNumber_double]
    cases hu : a.toModel.unpack with
    | notANumber => rw [hu] at h; cases h
    | _ => rfl
  not_lt_of_infinite := by
    intro a b x ha hb h
    rw [double_lt, doubleOrder] at h ⊢
    change a.toModel.unpack.isFinite = false at ha
    change b.toModel.unpack.isFinite = true at hb
    generalize a.toModel.unpack = u at ha h ⊢
    generalize b.toModel.unpack = v at hb h
    generalize x.toModel.unpack = w
    cases u with
    | zero s => cases ha
    | finite s m e h => cases ha
    | notANumber => cases w <;> rfl
    | infinity s =>
        cases s with
        | positive =>
            -- What is finite is below it.
            cases v with
            | zero t => cases (h : true = false)
            | finite t m e h' => cases t <;> cases (h : true = false)
            | _ => cases hb
        | negative =>
            cases w with
            | infinity t => cases t <;> rfl
            | finite t m e h => cases t <;> rfl
            | _ => rfl
  infinite_not_lt := by
    intro a b x hb ha h
    rw [double_lt, doubleOrder] at h ⊢
    change a.toModel.unpack.isFinite = true at ha
    change b.toModel.unpack.isFinite = false at hb
    generalize a.toModel.unpack = u at ha h
    generalize b.toModel.unpack = v at hb h ⊢
    generalize x.toModel.unpack = w
    cases v with
    | zero s => cases hb
    | finite s m e h => cases hb
    | notANumber => rfl
    | infinity s =>
        cases s with
        | positive =>
            cases w with
            | infinity t => cases t <;> rfl
            | _ => rfl
        | negative =>
            -- What is finite is above it.
            cases u with
            | zero t => cases (h : true = false)
            | finite t m e h' => cases t <;> cases (h : true = false)
            | _ => cases ha

end Double

end BlockDiagram
