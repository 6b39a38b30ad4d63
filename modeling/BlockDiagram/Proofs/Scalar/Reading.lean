import BlockDiagram.Proofs.Decimal.Binary
import BlockDiagram.Proofs.Scalar.Clamp
import Mathlib.Data.Rat.Floor
/-! Exact readings: arithmetic on rationals with nothing rounded, the rational number that a floating-point
number is, and that comparing the numbers is comparing the rationals. -/

namespace BlockDiagram

/-- Rationals, with nothing rounded. An index is still held in a word. -/
instance rationalArithmetic : Arithmetic ℚ where
  ofNat n := n
  lt a b := decide (a < b)
  floor x := ⌊x⌋
  toIndex x := min ⌊x⌋.toNat (wordSize - 1)
  isFinite _ := true

/-- Rational arithmetic with another division. -/
abbrev dividingBy (divide : ℚ → ℚ → ℚ) : Arithmetic ℚ := { rationalArithmetic with div := divide }

/-- Finite scalars compare as the rationals they are read as. -/
def ReadsExactly {α : Type} [Arithmetic α] (read : α → ℚ) : Prop :=
  ∀ a b : α, Arithmetic.isFinite a = true → Arithmetic.isFinite b = true →
    (Arithmetic.lt a b = true ↔ read a < read b)

open Float.Model

namespace BinaryMagnitude

def toRat (b : BinaryMagnitude) : ℚ := b.mantissa * 2 ^ b.exponent

theorem toRat_pos {b : BinaryMagnitude} (h : b.Canonical) : 0 < b.toRat := by
  have hpos : (0 : ℚ) < b.mantissa := by exact_mod_cast h.positive
  unfold toRat
  positivity

variable {a b : BinaryMagnitude}

/-- A magnitude that is not of the least exponent has all its digits. -/
theorem toRat_lt_of_exponent_lt (ha : a.Canonical) (hb : b.Canonical) (h : a.exponent < b.exponent) :
    a.toRat < b.toRat := by
  have hfull : 2 ^ 52 ≤ b.mantissa := by
    refine hb.full.resolve_left fun hleast => ?_
    have := ha.least
    omega
  have hbelow : (a.mantissa : ℚ) < 2 ^ 53 := by exact_mod_cast ha.below
  have hfull' : (2 : ℚ) ^ 52 ≤ b.mantissa := by exact_mod_cast hfull
  calc a.toRat
      < 2 ^ 53 * 2 ^ a.exponent := mul_lt_mul_of_pos_right hbelow (by positivity)
    _ = 2 ^ 52 * 2 ^ (a.exponent + 1) := by rw [zpow_add₀ two_ne_zero, zpow_one]; ring
    _ ≤ 2 ^ 52 * 2 ^ b.exponent :=
        mul_le_mul_of_nonneg_left (zpow_le_zpow_right₀ one_le_two h) (by positivity)
    _ ≤ b.toRat := mul_le_mul_of_nonneg_right hfull' (by positivity)

theorem toRat_lt_iff_of_exponent_eq (h : a.exponent = b.exponent) :
    a.toRat < b.toRat ↔ a.mantissa < b.mantissa := by
  rw [toRat, toRat, h, mul_lt_mul_iff_left₀ (by positivity), Nat.cast_lt]

/-- Magnitudes compare by exponent first, and by mantissa where the exponents are equal. -/
theorem compare_toRat (ha : a.Canonical) (hb : b.Canonical) :
    (compare a.exponent b.exponent).then (compare a.mantissa b.mantissa) = compare a.toRat b.toRat := by
  rcases lt_trichotomy a.exponent b.exponent with h | h | h
  · rw [compare_lt_iff_lt.mpr h, compare_lt_iff_lt.mpr (toRat_lt_of_exponent_lt ha hb h)]
    rfl
  · rw [compare_eq_iff_eq.mpr h, Ordering.then]
    rcases lt_trichotomy a.mantissa b.mantissa with hm | hm | hm
    · rw [compare_lt_iff_lt.mpr hm, compare_lt_iff_lt.mpr ((toRat_lt_iff_of_exponent_eq h).mpr hm)]
    · rw [compare_eq_iff_eq.mpr hm, compare_eq_iff_eq.mpr (by rw [toRat, toRat, h, hm])]
    · rw [compare_gt_iff_gt.mpr hm, compare_gt_iff_gt.mpr ((toRat_lt_iff_of_exponent_eq h.symm).mpr hm)]
  · rw [compare_gt_iff_gt.mpr h, compare_gt_iff_gt.mpr (toRat_lt_of_exponent_lt hb ha h)]
    rfl

end BinaryMagnitude

theorem compare_neg_neg (x y : ℚ) : compare (-x) (-y) = (compare x y).swap := by
  rcases lt_trichotomy x y with h | h | h
  · rw [compare_lt_iff_lt.mpr h, compare_gt_iff_gt.mpr (neg_lt_neg h)]
    rfl
  · rw [compare_eq_iff_eq.mpr h, compare_eq_iff_eq.mpr (congrArg Neg.neg h)]
    rfl
  · rw [compare_gt_iff_gt.mpr h, compare_lt_iff_lt.mpr (neg_lt_neg h)]
    rfl

namespace BinaryValue

/-- The rational number that a finite number is. -/
def toRat : BinaryValue → ℚ
  | .finite false b => b.toRat
  | .finite true b => -b.toRat
  | _ => 0

theorem StandsFor.compare_toRat {v w : BinaryValue} {x y : UnpackedFloat} (hv : StandsFor v x)
    (hw : StandsFor w y) (hx : v.isFinite = true) (hy : w.isFinite = true) :
    x.compare y = some (compare v.toRat w.toRat) := by
  cases hv with
  | nan => cases hx
  | infinite => cases hx
  | zero s =>
      cases hw with
      | nan => cases hy
      | infinite => cases hy
      | zero t => exact congrArg some (compare_eq_iff_eq.mpr rfl).symm
      | @finite t b hb =>
          have hpos := BinaryMagnitude.toRat_pos hb
          cases t with
          | false => exact congrArg some (compare_lt_iff_lt.mpr hpos).symm
          | true => exact congrArg some (compare_gt_iff_gt.mpr (neg_lt_zero.mpr hpos)).symm
  | @finite s a ha =>
      have hpos := BinaryMagnitude.toRat_pos ha
      cases hw with
      | nan => cases hy
      | infinite => cases hy
      | zero t =>
          cases s with
          | false => exact congrArg some (compare_gt_iff_gt.mpr hpos).symm
          | true => exact congrArg some (compare_lt_iff_lt.mpr (neg_lt_zero.mpr hpos)).symm
      | @finite t b hb =>
          have hpos' := BinaryMagnitude.toRat_pos hb
          have hcompare := BinaryMagnitude.compare_toRat ha hb
          cases s with
          | false =>
              cases t with
              | false => exact congrArg some hcompare
              | true => exact congrArg some (compare_gt_iff_gt.mpr (by dsimp only [toRat]; linarith)).symm
          | true =>
              cases t with
              | false => exact congrArg some (compare_lt_iff_lt.mpr (by dsimp only [toRat]; linarith)).symm
              | true =>
                  refine congrArg some ((congrArg Ordering.swap hcompare).trans ?_)
                  exact (compare_neg_neg _ _).symm

end BinaryValue

/-- The rational number that a finite double is. -/
def exactDouble (x : Float) : ℚ := (BinaryValue.ofFloat x).toRat

theorem readsExactly_exactDouble : ReadsExactly exactDouble := by
  intro a b ha hb
  have hcompare : doubleOrder a b = some (compare (exactDouble a) (exactDouble b)) :=
    (BinaryValue.standsFor a).compare_toRat (BinaryValue.standsFor b)
      ((BinaryValue.isFinite_ofFloat a).trans ha) ((BinaryValue.isFinite_ofFloat b).trans hb)
  rw [double_lt, hcompare, beq_iff_eq, Option.some_inj, compare_lt_iff_lt]

end BlockDiagram
