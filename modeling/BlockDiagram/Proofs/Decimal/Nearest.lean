import BlockDiagram.Proofs.Decimal.Digits
import BlockDiagram.Proofs.Decimal.Rounding
/-! The nearest number: a literal that rounds to a 64-bit number is read as that number, on the short way
for small literals and on the long way for all others. -/

namespace BlockDiagram

open Float.Model
open Float.Model.UnpackedFloat
open BinaryValue (packed unpack_packed)

variable {b : BinaryMagnitude}

section Exact

/-- A natural number with all digits of a mantissa. -/
def BinaryMagnitude.ofNatural (n : Nat) : BinaryMagnitude :=
  let mantissa := n * 2 ^ (52 - n.log2) / 2 ^ (n.log2 - 52)
  ⟨mantissa, (n.log2 : Int) - 52, mantissa = 2 ^ 52⟩

/-- What a magnitude stands for rounds to it. -/
theorem BinaryMagnitude.rounds_self (b : BinaryMagnitude) : b.Rounds (b.mantissa * 2 ^ b.exponent) := by
  have hgap : 0 < b.gap := by
    rw [gap]
    split <;> norm_num
  have hself : (b.mantissa * 2 ^ b.exponent : ℚ) / 2 ^ b.exponent = b.mantissa :=
    mul_div_cancel_right₀ _ (by positivity)
  exact ⟨by linarith, by linarith, fun _ => ⟨by linarith, by linarith⟩⟩

theorem ofNatural_canonical {n : Nat} (h : 0 < n) (hn : n < 2 ^ 53) :
    (BinaryMagnitude.ofNatural n).Canonical ∧
      ((BinaryMagnitude.ofNatural n).mantissa : ℚ) * 2 ^ (BinaryMagnitude.ofNatural n).exponent = n ∧
      2 ^ 52 ≤ (BinaryMagnitude.ofNatural n).mantissa := by
  have hlog : n.log2 < 53 := (Nat.log2_lt (Nat.ne_of_gt h)).mpr hn
  have hmantissa : (BinaryMagnitude.ofNatural n).mantissa = n * 2 ^ (52 - n.log2) := by
    rw [BinaryMagnitude.ofNatural, Nat.sub_eq_zero_of_le (show n.log2 ≤ 52 by omega), Nat.pow_zero,
      Nat.div_one]
  have hlow : 2 ^ 52 ≤ n * 2 ^ (52 - n.log2) := by
    calc 2 ^ 52 = 2 ^ n.log2 * 2 ^ (52 - n.log2) := by rw [← Nat.pow_add]; congr 1; omega
      _ ≤ n * 2 ^ (52 - n.log2) := Nat.mul_le_mul_right _ (Nat.log2_self_le (Nat.ne_of_gt h))
  have hhigh : n * 2 ^ (52 - n.log2) < 2 ^ 53 := by
    calc n * 2 ^ (52 - n.log2) < 2 ^ (n.log2 + 1) * 2 ^ (52 - n.log2) :=
          Nat.mul_lt_mul_of_pos_right Nat.lt_log2_self (Nat.two_pow_pos _)
      _ = 2 ^ 53 := by rw [← Nat.pow_add]; congr 1; omega
  have hexponent : (BinaryMagnitude.ofNatural n).exponent = (n.log2 : Int) - 52 := rfl
  refine ⟨⟨?_, ?_, ?_, ?_, .inr ?_, ?_⟩, ?_, hmantissa ▸ hlow⟩
  · omega
  · omega
  · omega
  · omega
  · omega
  · rw [hexponent]
    exact ⟨fun hnarrow => ⟨of_decide_eq_true hnarrow, by omega⟩, fun hpower => decide_eq_true hpower.1⟩
  · rw [hmantissa, hexponent]
    have hpower : (2 : ℚ) ^ ((n.log2 : Int) - 52) = (2 ^ (52 - n.log2))⁻¹ := by
      rw [← zpow_natCast, ← zpow_neg]
      congr 1
      omega
    rw [hpower]
    push_cast
    field_simp

/-- Naturals below two to the fifty-third are 64-bit numbers. -/
theorem toFloat_natural {n : Nat} (h : 0 < n) (hn : n < 2 ^ 53) :
    n.toUInt64.toFloat = packed false (ofNatural_canonical h hn).1 := by
  obtain ⟨hcanonical, hvalue, hfull⟩ := ofNatural_canonical h hn
  have hword : n.toUInt64.toNat = n := UInt64.toNat_ofNat_of_lt' (by
    change n < 2 ^ 64
    omega)
  have hcompare : compare (n : Int) 0 = .gt := Int.compare_eq_gt.mpr (by omega)
  have hround : UnpackedFloat.round Format.binary64 .positive n 0 =
      .finite .positive (BinaryMagnitude.ofNatural n).mantissa (BinaryMagnitude.ofNatural n).exponent
        hcanonical.positive := by
    have hlog : n.log2 < 53 := (Nat.log2_lt (Nat.ne_of_gt h)).mpr hn
    have hmantissa : n <<< (0 - ((n.log2 : Int) + 0 - 52)).toNat =
        (BinaryMagnitude.ofNatural n).mantissa := by
      rw [BinaryMagnitude.ofNatural, Nat.sub_eq_zero_of_le (show n.log2 ≤ 52 by omega), Nat.pow_zero,
        Nat.div_one, Nat.shiftLeft_eq]
      congr 2
      omega
    have hexponent : (0 : Int) - (0 - ((n.log2 : Int) + 0 - 52)).toNat =
        (BinaryMagnitude.ofNatural n).exponent := by
      change (0 : Int) - (0 - ((n.log2 : Int) + 0 - 52)).toNat = (n.log2 : Int) - 52
      omega
    have hdigits : 52 ≤ (BinaryMagnitude.ofNatural n).mantissa.log2 :=
      (Nat.le_log2 (Nat.ne_of_gt hcanonical.positive)).mpr hfull
    rw [UnpackedFloat.round, targetExponent_eq, max_eq_left (by omega), decreaseExponent]
    dsimp only
    rw [hmantissa, hexponent]
    refine roundWithAccuracy_eq hcanonical (BinaryMagnitude.rounds_self _) ?_ (by omega) .positive
    rw [mul_div_cancel_right₀ _ (by positivity)]
    exact represents_exact _
  change Float.ofModel (Float.Model.pack (UnpackedFloat.ofNat Format.binary64 n.toUInt64.toNat)) = _
  rw [hword, UnpackedFloat.ofNat, UnpackedFloat.ofInt, UnpackedFloat.normalize, hcompare]
  dsimp only
  rw [Int.toNat_natCast, hround]
  rfl

/-- The number is positive, has all digits of a mantissa, and is this rational. -/
def Holds (x : Float) (v : ℚ) : Prop :=
  ∃ m e h, x.toModel.unpack = .finite .positive m e h ∧ m * 2 ^ e = v ∧ 2 ^ 52 ≤ m

theorem holds_natural {n : Nat} (h : 0 < n) (hn : n < 2 ^ 53) : Holds n.toUInt64.toFloat n := by
  obtain ⟨hcanonical, hvalue, hfull⟩ := ofNatural_canonical h hn
  refine ⟨_, _, hcanonical.positive, ?_, hvalue, hfull⟩
  rw [toFloat_natural h hn]
  exact unpack_packed false hcanonical

theorem ofFloat_power : ∀ k : Fin 23,
    BinaryValue.ofFloat Float.exactlyRepresentablePowersOfTen[k] = .finite false (.ofNatural (10 ^ k.val)) ∧
      (BinaryMagnitude.ofNatural (10 ^ k.val)).mantissa * 2 ^ ((10 ^ k.val).log2 - 52) =
        10 ^ k.val * 2 ^ (52 - (10 ^ k.val).log2) ∧
      2 ^ 52 ≤ (BinaryMagnitude.ofNatural (10 ^ k.val)).mantissa := by
  decide +kernel

/-- Powers of ten up to the twenty-second are 64-bit numbers. -/
theorem holds_power (k : Fin 23) : Holds Float.exactlyRepresentablePowersOfTen[k] (10 ^ k.val) := by
  obtain ⟨hparts, hvalue, hfull⟩ := ofFloat_power k
  have hstands := BinaryValue.standsFor Float.exactlyRepresentablePowersOfTen[k]
  rw [hparts] at hstands
  have hpower : (2 : ℚ) ^ (((10 ^ k.val).log2 : Int) - 52) * 2 ^ (52 - (10 ^ k.val).log2) =
      2 ^ ((10 ^ k.val).log2 - 52) := by
    rw [← zpow_natCast, ← zpow_natCast, ← zpow_add₀ (by norm_num)]
    congr 1
    omega
  have hcast : ((BinaryMagnitude.ofNatural (10 ^ k.val)).mantissa : ℚ) * 2 ^ ((10 ^ k.val).log2 - 52) =
      10 ^ k.val * 2 ^ (52 - (10 ^ k.val).log2) := by exact_mod_cast hvalue
  rw [← hpower, ← mul_assoc] at hcast
  have hexact := mul_right_cancel₀ (by positivity) hcast
  generalize Float.exactlyRepresentablePowersOfTen[k] = x at hstands
  generalize hu : x.toModel.unpack = u at hstands
  cases hstands with
  | finite _ h => exact ⟨_, _, h.positive, hu, hexact, hfull⟩

theorem mul_of_holds {x y : Float} {v w : ℚ} (hx : Holds x v) (hy : Holds y w) (hb : b.Canonical)
    (hq : b.Rounds (v * w)) : x * y = packed false hb := by
  obtain ⟨m₁, e₁, h₁, hx, rfl, hfull⟩ := hx
  obtain ⟨m₂, e₂, h₂, hy, rfl, -⟩ := hy
  have hproduct : (m₁ * m₂ : ℚ) * 2 ^ (e₁ + e₂) = m₁ * 2 ^ e₁ * (m₂ * 2 ^ e₂) := by
    rw [zpow_add₀ (by norm_num)]
    ring
  rw [← hproduct] at hq
  change Float.ofModel (Float.Model.pack (mul Format.binary64 x.toModel.unpack y.toModel.unpack)) = _
  rw [hx, hy, mul_eq hb hq (hfull.trans (Nat.le_mul_of_pos_right m₁ h₂))]
  rfl

theorem div_of_holds {x y : Float} {v w : ℚ} (hx : Holds x v) (hy : Holds y w) (hb : b.Canonical)
    (hq : b.Rounds (v / w)) : x / y = packed false hb := by
  obtain ⟨m₁, e₁, h₁, hx, rfl, -⟩ := hx
  obtain ⟨m₂, e₂, h₂, hy, rfl, -⟩ := hy
  change Float.ofModel (Float.Model.pack (div Format.binary64 x.toModel.unpack y.toModel.unpack)) = _
  rw [hx, hy, div_eq hb hq]
  rfl

end Exact

section Scientific

variable {m : Nat} {e : Int}

theorem unpacked_ofScientific (hb : b.Canonical) (hm : 0 < m) (hhigh : e ≤ 2048)
    (hlow : -(2048 + (m.log2 : Int)) ≤ e) (hq : b.Rounds (m * 10 ^ e)) :
    UnpackedFloat.ofScientific Format.binary64 m e =
      .finite .positive b.mantissa b.exponent hb.positive := by
  have hbits : (2 : Int) ^ Format.binary64.exponentBits = 2048 := rfl
  rw [UnpackedFloat.ofScientific, dif_neg (Nat.ne_of_gt hm), hbits, if_neg (by omega), if_neg (by omega)]
  split
  · next hwhole =>
      have hpower : ((10 ^ e.toNat : Nat) : ℚ) = 10 ^ e := by
        rw [← Int.toNat_of_nonneg hwhole, zpow_natCast, Int.toNat_natCast]
        push_cast
        rfl
      have hdigits : Format.binary64.mantissaBits = 53 := rfl
      have hvalue : ((m <<< Format.binary64.mantissaBits : Nat) : ℚ) * (10 ^ e.toNat : Nat) *
          2 ^ (-(Format.binary64.mantissaBits : Int) + 0) = m * 10 ^ e := by
        rw [hpower, hdigits, Nat.shiftLeft_eq]
        push_cast
        norm_num
        ring
      rw [← hvalue] at hq
      refine mul_eq hb hq ?_
      rw [hdigits, Nat.shiftLeft_eq]
      calc 2 ^ 52 ≤ m * 2 ^ 53 := by omega
        _ ≤ m * 2 ^ 53 * 10 ^ e.toNat := Nat.le_mul_of_pos_right _ (Nat.pow_pos (by decide))
  · next hfraction =>
      have hpower : ((10 ^ (-e).toNat : Nat) : ℚ) = (10 ^ e)⁻¹ := by
        rw [← zpow_neg, ← Int.toNat_of_nonneg (show 0 ≤ -e by omega), zpow_natCast, Int.toNat_natCast]
        push_cast
        rfl
      have hvalue : (m : ℚ) * 2 ^ (0 : Int) / ((10 ^ (-e).toNat : Nat) * 2 ^ (0 : Int)) = m * 10 ^ e := by
        rw [hpower, zpow_zero, mul_one, mul_one, div_inv_eq_mul]
      rw [← hvalue] at hq
      exact div_eq hb hq

theorem float_ofScientific (hb : b.Canonical) (hm : 0 < m) (hhigh : e ≤ 2048)
    (hlow : -(2048 + (m.log2 : Int)) ≤ e) (hq : b.Rounds (m * 10 ^ e)) :
    Float.ofScientific m (decide (e < 0)) e.natAbs = packed false hb := by
  rw [Float.ofScientific]
  split
  · next hsmall =>
      have hnatural := holds_natural hm hsmall.1
      have hten := holds_power ⟨e.natAbs, Nat.lt_succ_of_le hsmall.2⟩
      by_cases hnegative : e < 0
      · rw [if_pos (decide_eq_true hnegative)]
        refine div_of_holds hnatural hten hb ?_
        have hpower : (10 : ℚ) ^ e.natAbs = (10 ^ e)⁻¹ := by
          rw [← zpow_natCast, ← zpow_neg]
          congr 1
          omega
        rwa [hpower, div_inv_eq_mul]
      · rw [if_neg (by rw [decide_eq_false hnegative]; decide)]
        refine mul_of_holds hnatural hten hb ?_
        have hpower : (10 : ℚ) ^ e.natAbs = 10 ^ e := by
          rw [← zpow_natCast]
          congr 1
          omega
        rwa [hpower]
  · have hexponent : (if decide (e < 0) = true then Int.negOfNat e.natAbs else Int.ofNat e.natAbs) = e := by
      split
      · next hnegative =>
          have := of_decide_eq_true hnegative
          rw [Int.negOfNat_eq]
          change -(e.natAbs : Int) = e
          omega
      · next hwhole =>
          have := of_decide_eq_false (Bool.eq_false_iff.mpr hwhole)
          change (e.natAbs : Int) = e
          omega
    rw [hexponent]
    change Float.ofModel (Float.Model.pack (UnpackedFloat.ofScientific Format.binary64 m e)) = _
    rw [unpacked_ofScientific hb hm hhigh hlow hq]
    rfl

end Scientific

/-- What rounds to a 64-bit number is neither too small nor too large to be written with a few digits. -/
theorem BinaryMagnitude.Rounds.range {q : ℚ} (hb : b.Canonical) (hq : b.Rounds q) :
    (2 : ℚ) ^ (-1075 : Int) ≤ q ∧ q < 2 ^ (1024 : Int) := by
  have hpos : (0 : ℚ) < 2 ^ b.exponent := by positivity
  constructor
  · have hone : (1 : ℚ) ≤ b.mantissa := by exact_mod_cast hb.positive
    have hhalf : (2 : ℚ) ^ (-1 : Int) ≤ q / 2 ^ b.exponent := by
      norm_num
      linarith [hq.low, b.gap_le]
    rw [le_div_iff₀ hpos, ← zpow_add₀ (by norm_num)] at hhalf
    have hleast := hb.least
    exact (zpow_le_zpow_right₀ (by norm_num) (by omega)).trans hhalf
  · have hmost := hb.most
    exact (hq.lt hb).trans_le (zpow_le_zpow_right₀ (by norm_num) (by omega))

/-- The digits of a decimal tell its size. -/
theorem Decimal.size_bounds {d : Decimal} (h : 0 < d.digits) :
    (10 : ℚ) ^ ((toString d.digits).length + d.exponent - 1) ≤ d.digits * 10 ^ d.exponent ∧
      d.digits * 10 ^ d.exponent < (10 : ℚ) ^ ((toString d.digits).length + d.exponent) := by
  obtain ⟨hpositive, hlow⟩ := Literal.length_toString h
  have hhigh := Literal.lt_pow_length d.digits
  have hpos : (0 : ℚ) < 10 ^ d.exponent := by positivity
  generalize (toString d.digits).length = size at hpositive hlow hhigh
  constructor
  · have hcast : (10 : ℚ) ^ (size - 1) ≤ d.digits := by exact_mod_cast hlow
    have hexponent : (size : Int) + d.exponent - 1 = ((size - 1 : Nat) : Int) + d.exponent := by omega
    rw [hexponent, zpow_add₀ (by norm_num), zpow_natCast]
    exact mul_le_mul_of_nonneg_right hcast hpos.le
  · have hcast : (d.digits : ℚ) < 10 ^ size := by exact_mod_cast hhigh
    rw [zpow_add₀ (by norm_num), zpow_natCast]
    exact mul_lt_mul_of_pos_right hcast hpos

theorem length_le_log2 {n : Nat} (h : 0 < n) : (toString n).length ≤ n.log2 + 1 := by
  have hlt : n < 10 ^ (n.log2 + 1) :=
    Nat.lt_of_lt_of_le Nat.lt_log2_self (Nat.pow_le_pow_left (by decide) _)
  by_contra hlong
  obtain ⟨-, hlow⟩ := Literal.length_toString h
  have hpower : 10 ^ (n.log2 + 1) ≤ 10 ^ ((toString n).length - 1) :=
    Nat.pow_le_pow_right (by decide) (by omega)
  omega

theorem two_pow_lt_ten_pow : (2 : ℚ) ^ 1075 < 10 ^ 400 := by
  calc (2 : ℚ) ^ 1075 ≤ 2 ^ 1200 := pow_le_pow_right₀ (by norm_num) (by decide)
    _ = 8 ^ 400 := by rw [show (8 : ℚ) = 2 ^ 3 by norm_num, ← pow_mul]
    _ < 10 ^ 400 := pow_lt_pow_left₀ (by norm_num) (by norm_num) (by decide)

/-- A literal that rounds to a 64-bit number is read as that number. -/
theorem Literal.toFloat_eq {l : Literal} (hb : b.Canonical) (hdigits : 0 < l.magnitude.digits)
    (hq : b.Rounds (l.magnitude.digits * 10 ^ l.magnitude.exponent)) :
    l.toFloat = packed l.negative hb := by
  obtain ⟨negative, m⟩ := l
  dsimp only at *
  obtain ⟨hlow, hhigh⟩ := Decimal.size_bounds hdigits
  obtain ⟨hleast, hmost⟩ := hq.range hb
  have hlength := length_le_log2 hdigits
  have hsmall : -400 ≤ (toString m.digits).length + m.exponent := by
    have htiny : (10 : ℚ) ^ (-400 : Int) < 2 ^ (-1075 : Int) := by
      rw [zpow_neg, zpow_neg]
      exact inv_strictAnti₀ (by positivity) two_pow_lt_ten_pow
    have hexp := (zpow_lt_zpow_iff_right₀ (by norm_num : (1 : ℚ) < 10)).mp
      (htiny.trans (hleast.trans_lt hhigh))
    omega
  have hlarge : (toString m.digits).length + m.exponent ≤ 400 := by
    have hhuge : (2 : ℚ) ^ (1024 : Int) < 10 ^ (400 : Int) :=
      (zpow_le_zpow_right₀ (by norm_num) (by decide : (1024 : Int) ≤ (1075 : Nat))).trans_lt
        two_pow_lt_ten_pow
    have hexp := (zpow_lt_zpow_iff_right₀ (by norm_num : (1 : ℚ) < 10)).mp
      (hlow.trans_lt (hmost.trans hhuge))
    omega
  have hnearest := float_ofScientific hb hdigits (by omega) (by omega) hq
  have hregular : ¬ (decide (m.digits = 0) ||
      decide ((toString m.digits).length + m.exponent < -400)) = true := by
    rw [Bool.or_eq_true, decide_eq_true_eq, decide_eq_true_eq]
    omega
  rw [toFloat]
  dsimp only
  rw [if_neg hregular, if_neg (Int.not_lt.mpr hlarge), hnearest]
  cases negative with
  | false => rfl
  | true =>
      change Float.ofModel (Float.Model.pack (packed false hb).toModel.unpack.neg) = _
      rw [unpack_packed]
      rfl

end BlockDiagram
