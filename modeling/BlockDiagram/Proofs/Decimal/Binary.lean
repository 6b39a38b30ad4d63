import BlockDiagram.Decimal
import Mathlib
/-! The parts of a floating-point number: what the fields of its bits say is what its logical model says,
and a number that is not a symbol is made of its parts again. -/

namespace BlockDiagram

open Float.Model
open Float.Model.UnpackedFloat

/-- The sign of a number in the logical model. -/
def signOf (negative : Bool) : Sign := if negative then .negative else .positive

/-- What a magnitude must satisfy to be the one of a 64-bit number: no more than fifty-three digits, and
fewer only at the least exponent. -/
structure BinaryMagnitude.Canonical (b : BinaryMagnitude) : Prop where
  positive : 0 < b.mantissa
  below : b.mantissa < 2 ^ 53
  least : -1074 ≤ b.exponent
  most : b.exponent ≤ 971
  full : b.exponent = -1074 ∨ 2 ^ 52 ≤ b.mantissa
  narrow : b.narrowBelow = true ↔ b.mantissa = 2 ^ 52 ∧ b.exponent ≠ -1074

namespace BinaryValue

/-- A number taken apart stands for a number of the logical model. -/
inductive StandsFor : BinaryValue → UnpackedFloat → Prop where
  | nan : StandsFor .nan .notANumber
  | infinite (negative : Bool) : StandsFor (.infinite negative) (.infinity (signOf negative))
  | zero (negative : Bool) : StandsFor (.zero negative) (.zero (signOf negative))
  | finite (negative : Bool) {b : BinaryMagnitude} (h : b.Canonical) :
      StandsFor (.finite negative b) (.finite (signOf negative) b.mantissa b.exponent h.positive)

theorem StandsFor.of_eq {negative : Bool} {b : BinaryMagnitude} (h : b.Canonical) {m : Nat} {e : Int}
    {hpos : 0 < m} (hm : m = b.mantissa) (he : e = b.exponent) :
    StandsFor (.finite negative b) (.finite (signOf negative) m e hpos) := by
  subst hm he
  exact .finite negative h

section Fields

variable (bits : BitVec Format.binary64.numBits)

theorem toNat_lt : bits.toNat < 2 ^ 64 := bits.isLt

theorem toNat_unpackMantissa : (unpackMantissa bits).toNat = bits.toNat % 2 ^ 52 := by
  simp [unpackMantissa]

theorem toNat_unpackExponent : (unpackExponent bits).toNat = bits.toNat / 2 ^ 52 % 2 ^ 11 := by
  simp [unpackExponent, Nat.shiftRight_eq_div_pow]

theorem toNat_unpackSign : (unpackSign bits).toNat = bits.toNat / 2 ^ 63 := by
  have hlt := toNat_lt bits
  simp [unpackSign, Nat.shiftRight_eq_div_pow]
  omega

theorem ofBitVec_unpackSign :
    Sign.ofBitVec (unpackSign bits) = signOf (decide (2 ^ 63 ≤ bits.toNat)) := by
  have hlt := toNat_lt bits
  have hsign := toNat_unpackSign bits
  rw [Sign.ofBitVec, signOf]
  by_cases hnegative : 2 ^ 63 ≤ bits.toNat
  · rw [if_neg, if_pos (decide_eq_true hnegative)]
    intro hzero
    rw [hzero] at hsign
    simp at hsign
    omega
  · rw [if_pos, if_neg (by simpa using hnegative)]
    apply BitVec.eq_of_toNat_eq
    rw [hsign]
    simp
    omega

theorem unpackExponent_eq_ones : unpackExponent bits = -1#_ ↔ bits.toNat / 2 ^ 52 % 2 ^ 11 = 0x7ff := by
  rw [← BitVec.toNat_inj, toNat_unpackExponent]
  exact Iff.rfl

theorem unpackExponent_eq_zero : unpackExponent bits = 0#_ ↔ bits.toNat / 2 ^ 52 % 2 ^ 11 = 0 := by
  rw [← BitVec.toNat_inj, toNat_unpackExponent]
  exact Iff.rfl

theorem unpackMantissa_eq_zero : unpackMantissa bits = 0#_ ↔ bits.toNat % 2 ^ 52 = 0 := by
  rw [← BitVec.toNat_inj, toNat_unpackMantissa]
  exact Iff.rfl

theorem toNat_leading (v : BitVec 52) : (1#1 ++ v).toNat = 2 ^ 52 + v.toNat := by
  rw [BitVec.toNat_append, ← Nat.shiftLeft_add_eq_or_of_lt v.isLt, Nat.shiftLeft_eq]
  rfl

theorem standsFor_unpack : StandsFor (ofBits bits.toNat) (UnpackedFloat.unpack Format.binary64 bits) := by
  have hmantissa := toNat_unpackMantissa bits
  have hexponent := toNat_unpackExponent bits
  rw [UnpackedFloat.unpack, ofBits]
  dsimp only
  split
  · next hones =>
      rw [if_pos ((unpackExponent_eq_ones bits).mpr hones)]
      split
      · next hfraction =>
          rw [if_pos ((unpackMantissa_eq_zero bits).mpr hfraction), ofBitVec_unpackSign]
          exact .infinite _
      · next hfraction =>
          rw [if_neg (mt (unpackMantissa_eq_zero bits).mp hfraction)]
          exact .nan
  · next hones =>
      rw [if_neg (mt (unpackExponent_eq_ones bits).mp hones)]
      split
      · next hzeros =>
          rw [if_pos ((unpackExponent_eq_zero bits).mpr hzeros)]
          split
          · next hfraction =>
              rw [dif_pos ((unpackMantissa_eq_zero bits).mpr hfraction), ofBitVec_unpackSign]
              exact .zero _
          · next hfraction =>
              rw [dif_neg (mt (unpackMantissa_eq_zero bits).mp hfraction), ofBitVec_unpackSign]
              refine .of_eq ⟨by dsimp only; omega, by dsimp only; omega, Int.le_refl _,
                by dsimp only; omega, .inl rfl, ?_⟩ hmantissa ?_
              · simp only [Bool.false_eq_true, false_iff]
                omega
              · have hbias : (Format.exponentBias Format.binary64 : Int) = 1023 := rfl
                have hbiased : (unpackExponent bits).toNat = 0 := by omega
                dsimp only
                rw [hbiased, hbias]
                rfl
      · next hzeros =>
          rw [if_neg (mt (unpackExponent_eq_zero bits).mp hzeros), ofBitVec_unpackSign]
          refine .of_eq ⟨by dsimp only; omega, by dsimp only; omega, by dsimp only; omega,
            by dsimp only; omega, .inr (by dsimp only; omega), ?_⟩ ?_ ?_
          · simp only [Bool.and_eq_true, decide_eq_true_eq]
            omega
          · have hleading := toNat_leading (unpackMantissa bits)
            dsimp only
            omega
          · have hbias : (Format.exponentBias Format.binary64 : Int) = 1023 := rfl
            dsimp only
            rw [hexponent, hbias]
            omega

end Fields

theorem standsFor (x : Float) : StandsFor (ofFloat x) x.toModel.unpack := standsFor_unpack _

/-- The bits are those of a number. -/
def isFinite : BinaryValue → Bool
  | .nan => false
  | .infinite _ => false
  | .zero _ => true
  | .finite _ _ => true

theorem StandsFor.isFinite {v : BinaryValue} {u : UnpackedFloat} (h : StandsFor v u) :
    v.isFinite = u.isFinite := by
  cases h <;> rfl

theorem isFinite_ofFloat (x : Float) : (ofFloat x).isFinite = x.isFinite := (standsFor x).isFinite

section Packing

/-- The bits of a number: the digit that all full mantissas have in common counts as one exponent. -/
def bitsOf (negative : Bool) (b : BinaryMagnitude) : Nat :=
  (if negative then 2 ^ 63 else 0) + (b.exponent + 1074).toNat * 2 ^ 52 + b.mantissa

theorem bitsOf_of_ofBits {n : Nat} {negative : Bool} {b : BinaryMagnitude}
    (h : ofBits n = .finite negative b) (hn : n < 2 ^ 64) : n = bitsOf negative b := by
  have hsign : (if decide (0x8000000000000000 ≤ n) = true then 2 ^ 63 else 0) = n / 2 ^ 63 * 2 ^ 63 := by
    split
    · next hnegative =>
        have := of_decide_eq_true hnegative
        omega
    · next hpositive =>
        have := of_decide_eq_false (Bool.eq_false_iff.mpr hpositive)
        omega
  rw [ofBits] at h
  split at h
  · split at h <;> cases h
  · split at h
    · split at h
      · cases h
      · cases h
        rw [bitsOf, hsign]
        dsimp only
        omega
    · cases h
      rw [bitsOf, hsign]
      dsimp only
      omega

theorem toNat_packComponents (s : Sign) (e : BitVec Format.binary64.exponentBits)
    (m : BitVec Format.binary64.mantissaBitsWithoutImplicit) :
    (packComponents Format.binary64 s e m).toNat =
      s.toBitVec.toNat * 2 ^ 63 + e.toNat * 2 ^ 52 + m.toNat := by
  rw [packComponents, BitVec.toNat_append, BitVec.toNat_append,
    ← Nat.shiftLeft_add_eq_or_of_lt e.isLt, ← Nat.shiftLeft_add_eq_or_of_lt m.isLt, Nat.shiftLeft_eq,
    Nat.shiftLeft_eq]
  dsimp only
  omega

theorem toNat_pack {b : BinaryMagnitude} (h : b.Canonical) (negative : Bool) :
    (UnpackedFloat.pack Format.binary64
      (.finite (signOf negative) b.mantissa b.exponent h.positive)).toNat = bitsOf negative b := by
  obtain ⟨hpositive, hbelow, hleast, hmost, hfull, -⟩ := h
  have hsign : (signOf negative).toBitVec.toNat * 2 ^ 63 = if negative then 2 ^ 63 else 0 := by
    cases negative <;> rfl
  have hbias : (Format.exponentBias Format.binary64 : Int) = 1023 := rfl
  rw [UnpackedFloat.pack, bitsOf]
  dsimp only
  rw [hbias, if_neg (by omega)]
  split
  · next hnormal =>
      have hleading : 2 ^ 52 ≤ b.mantissa := (Nat.le_log2 (Nat.ne_of_gt hpositive)).mp (by
        change b.mantissa.log2 + 1 = 53 at hnormal
        omega)
      rw [toNat_packComponents, hsign, BitVec.toNat_ofNat, BitVec.toNat_ofNat]
      dsimp only
      omega
  · next hsubnormal =>
      have hsmall : b.mantissa < 2 ^ 52 := by
        by_contra hlarge
        have hlow := (Nat.le_log2 (Nat.ne_of_gt hpositive)).mpr (Nat.le_of_not_lt hlarge)
        have hhigh := (Nat.log2_lt (Nat.ne_of_gt hpositive)).mpr hbelow
        exact hsubnormal (show b.mantissa.log2 + 1 = 53 by omega)
      rw [toNat_packComponents, hsign, BitVec.toNat_ofNat, BitVec.toNat_ofNat]
      dsimp only
      omega

/-- The three fields of the bits: the sign, the exponent and the fraction. -/
theorem fields_of_sum {n exponent mantissa : Nat} {negative : Bool} (hexponent : exponent ≤ 2045)
    (hmantissa : mantissa < 2 ^ 53)
    (hsum : n = (if negative then 2 ^ 63 else 0) + exponent * 2 ^ 52 + mantissa) :
    decide (0x8000000000000000 ≤ n) = negative ∧
      n / 0x10000000000000 % 0x800 = exponent + mantissa / 2 ^ 52 ∧
      n % 0x10000000000000 = mantissa % 2 ^ 52 := by
  cases negative with
  | false =>
      rw [if_neg Bool.false_ne_true] at hsum
      exact ⟨decide_eq_false (by omega), by omega, by omega⟩
  | true =>
      rw [if_pos rfl] at hsum
      exact ⟨decide_eq_true (by omega), by omega, by omega⟩

theorem ofBits_bitsOf {b : BinaryMagnitude} (h : b.Canonical) (negative : Bool) :
    ofBits (bitsOf negative b) = .finite negative b := by
  obtain ⟨hpositive, hbelow, hleast, hmost, hfull, hnarrow⟩ := h
  obtain ⟨mantissa, exponent, narrow⟩ := b
  dsimp only at *
  generalize hbits : bitsOf negative ⟨mantissa, exponent, narrow⟩ = n
  obtain ⟨hsign, hbiased, hfraction⟩ :=
    fields_of_sum (show (exponent + 1074).toNat ≤ 2045 by omega) hbelow hbits.symm
  rw [ofBits, hsign, hbiased, hfraction, if_neg (by omega)]
  by_cases hnormal : 2 ^ 52 ≤ mantissa
  · have hnarrow' : (decide (mantissa % 2 ^ 52 = 0) &&
        decide ((exponent + 1074).toNat + mantissa / 2 ^ 52 ≠ 1)) = narrow := by
      rw [Bool.eq_iff_iff, hnarrow, Bool.and_eq_true, decide_eq_true_eq, decide_eq_true_eq]
      omega
    rw [if_neg (by omega), hnarrow']
    congr 2 <;> omega
  · have hnarrow' : narrow = false := Bool.eq_false_iff.mpr fun htrue => by
      have := hnarrow.mp htrue
      omega
    rw [if_pos (by omega), if_neg (by omega), hnarrow']
    congr 2 <;> omega

theorem StandsFor.canonical {negative : Bool} {b : BinaryMagnitude} {u : UnpackedFloat}
    (h : StandsFor (.finite negative b) u) : b.Canonical := by
  cases h
  assumption

/-- The number that a canonical magnitude makes, with a sign. -/
def packed (negative : Bool) {b : BinaryMagnitude} (h : b.Canonical) : Float :=
  .ofModel (Float.Model.pack (.finite (signOf negative) b.mantissa b.exponent h.positive))

theorem unpack_packed (negative : Bool) {b : BinaryMagnitude} (h : b.Canonical) :
    (packed negative h).toModel.unpack = .finite (signOf negative) b.mantissa b.exponent h.positive := by
  have hstands := standsFor_unpack
    (UnpackedFloat.pack Format.binary64 (.finite (signOf negative) b.mantissa b.exponent h.positive))
  rw [toNat_pack h, ofBits_bitsOf h] at hstands
  change UnpackedFloat.unpack Format.binary64
    (UnpackedFloat.pack Format.binary64 (.finite (signOf negative) b.mantissa b.exponent h.positive)) = _
  generalize UnpackedFloat.unpack Format.binary64 _ = u at hstands
  cases hstands
  rfl

/-- Numbers with the same bits are the same. -/
theorem eq_of_toNat_toBits {x y : Float} (h : x.toBits.toNat = y.toBits.toNat) : x = y := by
  obtain ⟨⟨xbits, xvalid⟩⟩ := x
  obtain ⟨⟨ybits, yvalid⟩⟩ := y
  have hbits : xbits = ybits := UInt64.toNat_inj.mp h
  subst hbits
  rfl

/-- A number that is neither a symbol nor zero is made of its parts. -/
theorem eq_packed {x : Float} {negative : Bool} {b : BinaryMagnitude} (hx : ofFloat x = .finite negative b)
    (h : b.Canonical) : x = packed negative h := by
  have hpacked : (packed negative h).toBits.toNat = bitsOf negative b := toNat_pack h negative
  exact eq_of_toNat_toBits ((bitsOf_of_ofBits hx x.toBits.toNat_lt).trans hpacked.symm)

theorem eq_zero {x : Float} {negative : Bool} (hx : ofFloat x = .zero negative) :
    x = if negative then -0 else 0 := by
  have hbits : x.toBits.toNat = if negative then 2 ^ 63 else 0 := by
    have hlt := x.toBits.toNat_lt
    rw [ofFloat, ofBits] at hx
    split at hx
    · split at hx <;> cases hx
    · split at hx
      · split at hx
        · cases hx
          split
          · next hnegative =>
              have := of_decide_eq_true hnegative
              omega
          · next hpositive =>
              have := of_decide_eq_false (Bool.eq_false_iff.mpr hpositive)
              omega
        · cases hx
      · cases hx
  refine eq_of_toNat_toBits (hbits.trans ?_)
  cases negative <;> decide +kernel

end Packing

end BinaryValue

end BlockDiagram
