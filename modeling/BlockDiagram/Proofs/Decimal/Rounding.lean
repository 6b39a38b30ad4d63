import BlockDiagram.Proofs.Decimal.Binary
/-! Rounding: a rational that lies nearest a 64-bit number is rounded to it, whether it comes as a product
or as a quotient. -/

namespace BlockDiagram

open Float.Model
open Float.Model.UnpackedFloat

/-- The whole number is the one nearest the rational, or the even one of two. -/
structure NearestEven (n : Nat) (x : ℚ) : Prop where
  low : (n : ℚ) - 1 / 2 ≤ x
  high : x ≤ n + 1 / 2
  strict : n % 2 = 1 → (n : ℚ) - 1 / 2 < x ∧ x < n + 1 / 2

section Residue

/-- What a mantissa with a round bit and a sticky bit tells of a number. -/
def Represents (em : ExtendedMantissa) (x : ℚ) : Prop :=
  if em.stickyBit then
    2 * em.mantissa + em.roundBit.toNat < 2 * x ∧ 2 * x < 2 * em.mantissa + em.roundBit.toNat + 1
  else 2 * x = 2 * em.mantissa + em.roundBit.toNat

variable {em : ExtendedMantissa} {x : ℚ}

theorem Represents.shiftRightOne (h : Represents em x) : Represents em.shiftRightOne (x / 2) := by
  obtain ⟨m, r, s⟩ := em
  have hhalves : (m : ℚ) = 2 * (m / 2 : ℕ) + (m % 2 : ℕ) := by
    exact_mod_cast (Nat.div_add_mod m 2).symm
  have hbit : ((m % 2 != 0).toNat : ℚ) = (m % 2 : ℕ) := by
    obtain hm | hm := Nat.mod_two_eq_zero_or_one m <;> rw [hm] <;> rfl
  simp only [Represents, ExtendedMantissa.shiftRightOne, hbit] at h ⊢
  cases s <;> cases r <;> simp at h ⊢
  · linarith
  · constructor <;> linarith
  · constructor <;> linarith
  · constructor <;> linarith

theorem Represents.shiftRight (h : Represents em x) (n : Nat) : Represents (em >>> n) (x / 2 ^ n) := by
  change Represents (n.repeat ExtendedMantissa.shiftRightOne em) _
  induction n with
  | zero => simpa [Nat.repeat] using h
  | succ n ih =>
      rw [Nat.repeat, pow_succ, ← div_div]
      exact ih.shiftRightOne

/-- Whole numbers less than one apart are the same. -/
theorem eq_of_near {m n : Nat} (hm : (m : ℚ) < n + 1) (hn : (n : ℚ) < m + 1) : m = n := by
  have h1 : m < n + 1 := by exact_mod_cast hm
  have h2 : n < m + 1 := by exact_mod_cast hn
  omega

/-- Rounding gives the nearest whole number. -/
theorem Represents.roundedMantissa (h : Represents em x) {n : Nat} (hn : NearestEven n x) :
    em.roundedMantissa = n := by
  obtain ⟨m, r, s⟩ := em
  obtain ⟨hlow, hhigh, hstrict⟩ := hn
  simp only [Represents] at h
  cases s <;> cases r <;> simp at h
  · -- The number is whole.
    change m = n
    exact eq_of_near (by linarith) (by linarith)
  · -- The number is half a whole one, between an even and an odd number.
    have h1 : (n : ℚ) ≤ m + 1 := by linarith
    have h2 : (m : ℚ) ≤ n := by linarith
    have h3 : n ≤ m + 1 := by exact_mod_cast h1
    have h4 : m ≤ n := by exact_mod_cast h2
    have heven : n % 2 = 0 := by
      by_contra hodd
      obtain ⟨hlow, hhigh⟩ := hstrict (by omega)
      obtain rfl | rfl : n = m ∨ n = m + 1 := by omega
      · linarith
      · push_cast at hlow hhigh
        linarith
    change m + m % 2 = n
    omega
  · -- The number is in the lower half of a unit.
    change m = n
    exact eq_of_near (by linarith) (by linarith)
  · -- The number is in the upper half of a unit.
    change m + 1 = n
    refine eq_of_near ?_ ?_
    · push_cast
      linarith
    · push_cast
      linarith

/-- The mantissa is the whole part. -/
theorem Represents.bounds (h : Represents em x) : (em.mantissa : ℚ) ≤ x ∧ x < em.mantissa + 1 := by
  obtain ⟨m, r, s⟩ := em
  simp only [Represents] at h
  cases s <;> cases r <;> simp at h <;> constructor <;> linarith

end Residue

namespace BinaryMagnitude

/-- How far below the magnitude numbers still round to it, in units of its last place. -/
def gap (b : BinaryMagnitude) : ℚ := if b.narrowBelow then 1 / 4 else 1 / 2

/-- The rational rounds to the magnitude. -/
structure Rounds (b : BinaryMagnitude) (q : ℚ) : Prop where
  low : b.mantissa - b.gap ≤ q / 2 ^ b.exponent
  high : q / 2 ^ b.exponent ≤ b.mantissa + 1 / 2
  strict : b.mantissa % 2 = 1 →
    b.mantissa - b.gap < q / 2 ^ b.exponent ∧ q / 2 ^ b.exponent < b.mantissa + 1 / 2

variable {b : BinaryMagnitude} {q : ℚ}

theorem gap_le (b : BinaryMagnitude) : b.gap ≤ 1 / 2 := by
  rw [gap]
  split <;> norm_num

theorem Rounds.nearestEven (h : b.Rounds q) : NearestEven b.mantissa (q / 2 ^ b.exponent) where
  low := by linarith [h.low, b.gap_le]
  high := h.high
  strict hodd := ⟨by linarith [(h.strict hodd).1, b.gap_le], (h.strict hodd).2⟩

/-- What rounds to a magnitude is below the next power of two. -/
theorem Rounds.lt (hb : b.Canonical) (h : b.Rounds q) : q < 2 ^ (53 + b.exponent) := by
  have hbelow : (b.mantissa : ℚ) + 1 ≤ 2 ^ 53 := by exact_mod_cast hb.below
  have hlt : q / 2 ^ b.exponent < 2 ^ 53 := by linarith [h.high]
  rw [div_lt_iff₀ (by positivity)] at hlt
  rwa [zpow_add₀ (by norm_num)]

/-- Above the least exponent, what rounds to a magnitude is not far below a power of two, and below it
only if the magnitude is that power. -/
theorem Rounds.gt (hb : b.Canonical) (h : b.Rounds q) (he : b.exponent ≠ -1074) :
    2 ^ (51 + b.exponent) < q ∧ (b.mantissa ≠ 2 ^ 52 → 2 ^ (52 + b.exponent) < q) := by
  have hfull : 2 ^ 52 ≤ b.mantissa := hb.full.resolve_left he
  have hpos : (0 : ℚ) < 2 ^ b.exponent := by positivity
  constructor
  · have hmantissa : (2 : ℚ) ^ 52 ≤ b.mantissa := by exact_mod_cast hfull
    have hlt : (2 : ℚ) ^ 51 < q / 2 ^ b.exponent := by linarith [h.low, b.gap_le]
    rw [lt_div_iff₀ hpos] at hlt
    rwa [zpow_add₀ (by norm_num)]
  · intro hother
    have hmore : 2 ^ 52 + 1 ≤ b.mantissa := Nat.lt_of_le_of_ne hfull (Ne.symm hother)
    have hmantissa : (2 : ℚ) ^ 52 + 1 ≤ b.mantissa := by exact_mod_cast hmore
    have hlt : (2 : ℚ) ^ 52 < q / 2 ^ b.exponent := by linarith [h.low, b.gap_le]
    rw [lt_div_iff₀ hpos] at hlt
    rwa [zpow_add₀ (by norm_num)]

end BinaryMagnitude

theorem targetExponent_eq (m : Nat) (e : Int) :
    Format.binary64.targetExponent (totalExponent m e) = max (m.log2 + e - 52) (-1074) := by
  simp only [Format.targetExponent, totalExponent, Format.mantissaBits, Format.minExponent]
  omega

/-- The exponent of a canonical magnitude is the one it should have. -/
theorem BinaryMagnitude.Canonical.target {b : BinaryMagnitude} (h : b.Canonical) :
    max ((b.mantissa.log2 : Int) + b.exponent - 52) (-1074) = b.exponent := by
  have hhigh := (Nat.log2_lt (Nat.ne_of_gt h.positive)).mpr h.below
  obtain hleast | hfull := h.full
  · omega
  · have hlow := (Nat.le_log2 (Nat.ne_of_gt h.positive)).mpr hfull
    have := h.least
    omega

section Round

open BinaryMagnitude

variable {b : BinaryMagnitude} {q : ℚ} {m : Nat} {e : Int} {acc : Accuracy}

/-- The digits of a mantissa tell the size of the number. -/
theorem Represents.size (h : Represents (.ofMantissaAndAccuracy m acc) (q / 2 ^ e)) :
    (m ≠ 0 → (2 : ℚ) ^ ((m.log2 : Int) + e) ≤ q) ∧ q < (2 : ℚ) ^ ((m.log2 : Int) + 1 + e) := by
  have hmantissa : (ExtendedMantissa.ofMantissaAndAccuracy m acc).mantissa = m := by
    obtain _ | (_ | _ | _) := acc <;> rfl
  have hpos : (0 : ℚ) < 2 ^ e := by positivity
  obtain ⟨hfloor, hceil⟩ := h.bounds
  rw [hmantissa] at hfloor hceil
  rw [le_div_iff₀ hpos] at hfloor
  rw [div_lt_iff₀ hpos] at hceil
  constructor
  · intro hnonzero
    have hlog : ((2 : ℚ) ^ m.log2) ≤ m := by exact_mod_cast Nat.log2_self_le hnonzero
    rw [zpow_add₀ (by norm_num), zpow_natCast]
    exact (mul_le_mul_of_nonneg_right hlog hpos.le).trans hfloor
  · have hlog : (m : ℚ) + 1 ≤ 2 ^ (m.log2 + 1) := by exact_mod_cast Nat.lt_log2_self
    rw [zpow_add₀ (by norm_num), ← Nat.cast_one, ← Nat.cast_add, zpow_natCast]
    exact hceil.trans_le (mul_le_mul_of_nonneg_right hlog hpos.le)

/-- The exponent at which rounding happens is that of the result, or one less where rounding carries into
a new digit. -/
theorem target_cases (hb : b.Canonical) (hq : b.Rounds q)
    (hrep : Represents (.ofMantissaAndAccuracy m acc) (q / 2 ^ e))
    (hprecise : e ≤ max ((m.log2 : Int) + e - 52) (-1074)) :
    max ((m.log2 : Int) + e - 52) (-1074) = b.exponent ∨
      max ((m.log2 : Int) + e - 52) (-1074) = b.exponent - 1 ∧ b.mantissa = 2 ^ 52 ∧ b.exponent ≠ -1074 ∧
        q < 2 ^ (52 + b.exponent) := by
  have hleast := hb.least
  obtain ⟨hlow, hhigh⟩ := hrep.size
  -- No more digits than the result has.
  have hupper : max ((m.log2 : Int) + e - 52) (-1074) ≤ b.exponent := by
    by_cases hzero : m = 0
    · subst hzero
      simp only [Nat.log2_zero] at hprecise ⊢
      omega
    · have hexp := (zpow_lt_zpow_iff_right₀ (by norm_num : (1 : ℚ) < 2)).mp
        ((hlow hzero).trans_lt (hq.lt hb))
      omega
  by_cases he : b.exponent = -1074
  · omega
  · obtain ⟨hgt, hother⟩ := hq.gt hb he
    have hexp := (zpow_lt_zpow_iff_right₀ (by norm_num : (1 : ℚ) < 2)).mp (hgt.trans hhigh)
    by_cases hpower : b.mantissa = 2 ^ 52
    · by_cases hsame : max ((m.log2 : Int) + e - 52) (-1074) = b.exponent
      · exact .inl hsame
      · refine .inr ⟨by omega, hpower, he, hhigh.trans_le ?_⟩
        exact zpow_le_zpow_right₀ (by norm_num) (by omega)
    · have hexp' := (zpow_lt_zpow_iff_right₀ (by norm_num : (1 : ℚ) < 2)).mp ((hother hpower).trans hhigh)
      omega

theorem dite_mantissa (hb : b.Canonical) (s : Sign) (hm : m = b.mantissa) :
    (if h : m = 0 then .zero s else .finite s m b.exponent (Nat.pos_of_ne_zero h)) =
      UnpackedFloat.finite s b.mantissa b.exponent hb.positive := by
  subst hm
  exact dif_neg (Nat.ne_of_gt hb.positive)

/-- Half a unit of the last place below a power of two, rounding carries into a new digit. -/
theorem nearestEven_carry (hb : b.Canonical) (hq : b.Rounds q) (hpower : b.mantissa = 2 ^ 52)
    (hleast : b.exponent ≠ -1074) (hbelow : q < 2 ^ (52 + b.exponent)) :
    NearestEven (2 ^ 53) (q / 2 ^ (b.exponent - 1)) := by
  have hgap : b.gap = 1 / 4 := if_pos (hb.narrow.mpr ⟨hpower, hleast⟩)
  have hdouble : q / 2 ^ (b.exponent - 1) = 2 * (q / 2 ^ b.exponent) := by
    rw [zpow_sub_one₀ (by norm_num)]
    field_simp
  have hlow := hq.low
  rw [hgap, hpower] at hlow
  rw [zpow_add₀ (by norm_num), ← div_lt_iff₀ (by positivity)] at hbelow
  rw [hdouble]
  push_cast at hlow
  norm_num at hlow hbelow
  refine ⟨?_, ?_, fun hodd => absurd hodd (by decide)⟩
  · push_cast
    linarith
  · push_cast
    linarith

theorem shiftToTargetExponent_eq {target : Int} (htarget : max ((m.log2 : Int) + e - 52) (-1074) = target)
    (he : e ≤ target) :
    shiftToTargetExponent Format.binary64 m e acc =
      (ExtendedMantissa.ofMantissaAndAccuracy m acc >>> (target - e).toNat, target) := by
  rw [shiftToTargetExponent, shiftToExponent, targetExponent_eq, htarget, Int.toNat_of_nonneg (by omega)]
  congr 1
  omega

/-- What has enough digits and rounds to a magnitude is rounded to it. -/
theorem roundWithAccuracy_eq (hb : b.Canonical) (hq : b.Rounds q)
    (hrep : Represents (.ofMantissaAndAccuracy m acc) (q / 2 ^ e))
    (hprecise : e ≤ max ((m.log2 : Int) + e - 52) (-1074)) (s : Sign) :
    roundWithAccuracy Format.binary64 s m e acc = .finite s b.mantissa b.exponent hb.positive := by
  have hshifted : ∀ {target : Int}, e ≤ target →
      Represents (ExtendedMantissa.ofMantissaAndAccuracy m acc >>> (target - e).toNat) (q / 2 ^ target) := by
    intro target htarget
    have hpower : (2 : ℚ) ^ target = 2 ^ e * 2 ^ (target - e).toNat := by
      rw [← zpow_natCast, ← zpow_add₀ (by norm_num), Int.toNat_of_nonneg (by omega)]
      congr 1
      omega
    rw [hpower, ← div_div]
    exact hrep.shiftRight _
  obtain htarget | ⟨htarget, hpower, hleast, hbelow⟩ := target_cases hb hq hrep hprecise
  · rw [htarget] at hprecise
    have hround := (hshifted hprecise).roundedMantissa hq.nearestEven
    rw [roundWithAccuracy, shiftToTargetExponent_eq htarget hprecise]
    dsimp only
    rw [hround, shiftToTargetExponent_eq hb.target (Int.le_refl _)]
    refine dite_mantissa hb s ?_
    rw [Int.sub_self]
    rfl
  · rw [htarget] at hprecise
    have hround := (hshifted hprecise).roundedMantissa (nearestEven_carry hb hq hpower hleast hbelow)
    have hcarried : max (((2 ^ 53 : Nat).log2 : Int) + (b.exponent - 1) - 52) (-1074) = b.exponent := by
      have := hb.least
      rw [Nat.log2_two_pow]
      omega
    rw [roundWithAccuracy, shiftToTargetExponent_eq htarget hprecise]
    dsimp only
    rw [hround, shiftToTargetExponent_eq hcarried (by omega)]
    refine dite_mantissa hb s ?_
    rw [hpower, show b.exponent - (b.exponent - 1) = 1 by omega]
    rfl

end Round

section Operations

open BinaryMagnitude

variable {b : BinaryMagnitude} {m₁ m₂ : Nat} {e₁ e₂ : Int} {h₁ : 0 < m₁} {h₂ : 0 < m₂}

theorem represents_exact (m : Nat) : Represents (.ofMantissaAndAccuracy m .exact) m := by
  change 2 * (m : ℚ) = 2 * m + (0 : Nat)
  rw [Nat.cast_zero, add_zero]

/-- A quotient with remainder tells of the exact quotient. -/
theorem represents_fraction (a : Nat) {d : Nat} (hd : 0 < d) :
    Represents (.ofMantissaAndAccuracy (a / d) (accuracyOfFraction (a % d) d)) ((a : ℚ) / d) := by
  have hpos : (0 : ℚ) < d := by exact_mod_cast hd
  have hsum : (a : ℚ) = d * (a / d : Nat) + (a % d : Nat) := by
    exact_mod_cast (Nat.div_add_mod a d).symm
  have hvalue : (a : ℚ) / d = (a / d : Nat) + (a % d : Nat) / d := by
    rw [div_eq_iff hpos.ne', add_mul, div_mul_cancel₀ _ hpos.ne', ← mul_comm (d : ℚ)]
    exact hsum
  have hrest : ((a % d : Nat) : ℚ) / d < 1 := by
    rw [div_lt_one hpos]
    exact_mod_cast Nat.mod_lt a hd
  rw [hvalue, accuracyOfFraction]
  generalize a / d = n
  generalize hr : a % d = r at hrest
  split
  · next hzero =>
      rw [hzero, Nat.cast_zero, zero_div, add_zero]
      exact represents_exact n
  · next hnonzero =>
      have hpositive : (0 : ℚ) < r / d := div_pos (by exact_mod_cast Nat.pos_of_ne_zero hnonzero) hpos
      have hhalf : (2 * (r : ℚ)) / d = 2 * (r / d) := mul_div_assoc _ _ _
      cases hcompare : compare (2 * r) d with
      | lt =>
          have hlt : (2 * (r : ℚ)) / d < 1 := by
            rw [div_lt_one hpos]
            exact_mod_cast Nat.compare_eq_lt.mp hcompare
          change 2 * (n : ℚ) + (0 : Nat) < 2 * (n + r / d) ∧ 2 * (n + r / d : ℚ) < 2 * n + (0 : Nat) + 1
          rw [Nat.cast_zero]
          constructor <;> linarith
      | eq =>
          have heq : (2 * (r : ℚ)) / d = 1 := by
            rw [div_eq_one_iff_eq hpos.ne']
            exact_mod_cast Nat.compare_eq_eq.mp hcompare
          change 2 * (n + r / d : ℚ) = 2 * n + (1 : Nat)
          rw [Nat.cast_one]
          linarith
      | gt =>
          have hgt : 1 < (2 * (r : ℚ)) / d := by
            rw [one_lt_div hpos]
            exact_mod_cast Nat.compare_eq_gt.mp hcompare
          change 2 * (n : ℚ) + (1 : Nat) < 2 * (n + r / d) ∧ 2 * (n + r / d : ℚ) < 2 * n + (1 : Nat) + 1
          rw [Nat.cast_one]
          constructor <;> linarith

theorem mul_eq (hb : b.Canonical) (hq : b.Rounds (m₁ * m₂ * 2 ^ (e₁ + e₂))) (hprecise : 2 ^ 52 ≤ m₁ * m₂) :
    mul Format.binary64 (.finite .positive m₁ e₁ h₁) (.finite .positive m₂ e₂ h₂) =
      .finite .positive b.mantissa b.exponent hb.positive := by
  have hlog : 52 ≤ (m₁ * m₂).log2 := (Nat.le_log2 (Nat.mul_ne_zero (by omega) (by omega))).mpr hprecise
  refine roundWithAccuracy_eq hb hq ?_ (by omega) .positive
  rw [mul_div_assoc, div_self (by positivity), mul_one]
  exact_mod_cast represents_exact (m₁ * m₂)

/-- The dividend is shifted far enough for the quotient to have all its digits. -/
theorem log2_quotient (h₁ : 0 < m₁) (h₂ : 0 < m₂) {k : Nat} (hk : m₂.log2 + 53 ≤ m₁.log2 + k) :
    52 ≤ ((m₁ <<< k) / m₂).log2 := by
  have hdividend : 2 ^ (m₂.log2 + 53) ≤ m₁ <<< k := by
    rw [Nat.shiftLeft_eq]
    calc 2 ^ (m₂.log2 + 53) ≤ 2 ^ (m₁.log2 + k) := Nat.pow_le_pow_right (by decide) hk
      _ = 2 ^ m₁.log2 * 2 ^ k := Nat.pow_add ..
      _ ≤ m₁ * 2 ^ k := Nat.mul_le_mul_right _ (Nat.log2_self_le (Nat.ne_of_gt h₁))
  have hdivisor : 2 ^ 52 * m₂ ≤ 2 ^ (m₂.log2 + 53) := by
    calc 2 ^ 52 * m₂ ≤ 2 ^ 52 * 2 ^ (m₂.log2 + 1) := Nat.mul_le_mul_left _ (Nat.le_of_lt Nat.lt_log2_self)
      _ = 2 ^ (m₂.log2 + 53) := by rw [← Nat.pow_add]; congr 1; omega
  have hquotient : 2 ^ 52 ≤ (m₁ <<< k) / m₂ :=
    (Nat.le_div_iff_mul_le h₂).mpr (hdivisor.trans hdividend)
  exact (Nat.le_log2 (Nat.ne_of_gt (Nat.lt_of_lt_of_le (by decide) hquotient))).mpr hquotient

theorem div_eq (hb : b.Canonical) (hq : b.Rounds (m₁ * 2 ^ e₁ / (m₂ * 2 ^ e₂))) :
    div Format.binary64 (.finite .positive m₁ e₁ h₁) (.finite .positive m₂ e₂ h₂) =
      .finite .positive b.mantissa b.exponent hb.positive := by
  change roundWithAccuracy Format.binary64 (Sign.positive / Sign.positive)
    (divCore Format.binary64 m₁ e₁ m₂ e₂).1 (divCore Format.binary64 m₁ e₁ m₂ e₂).2.1
    (divCore Format.binary64 m₁ e₁ m₂ e₂).2.2 = _
  rw [divCore]
  have htarget : Format.binary64.targetExponent (totalExponent m₁ e₁ - totalExponent m₂ e₂) =
      max ((m₁.log2 : Int) + e₁ - (m₂.log2 + e₂) - 53) (-1074) := by
    simp only [Format.targetExponent, totalExponent, Format.mantissaBits, Format.minExponent]
    omega
  rw [htarget]
  dsimp only
  generalize htarget : min (e₁ - e₂) (max ((m₁.log2 : Int) + e₁ - (m₂.log2 + e₂) - 53) (-1074)) = target
  generalize hshift : (e₁ - e₂ - target).toNat = k
  have hk : (k : Int) = e₁ - e₂ - target := by omega
  refine roundWithAccuracy_eq hb hq ?_ ?_ .positive
  · have hscaled : (m₁ : ℚ) * 2 ^ e₁ / (m₂ * 2 ^ e₂) / 2 ^ target = ((m₁ <<< k : Nat) : ℚ) / m₂ := by
      have hpower : (2 : ℚ) ^ e₁ = 2 ^ k * 2 ^ target * 2 ^ e₂ := by
        rw [← zpow_natCast, ← zpow_add₀ (by norm_num), ← zpow_add₀ (by norm_num), hk]
        congr 1
        omega
      have hne : (m₂ : ℚ) ≠ 0 := by exact_mod_cast Nat.ne_of_gt h₂
      rw [hpower, Nat.shiftLeft_eq]
      push_cast
      field_simp
    rw [hscaled]
    exact represents_fraction _ h₂
  · by_cases hleast : target ≤ -1074
    · omega
    · have hdigits : 52 ≤ ((m₁ <<< k) / m₂).log2 := log2_quotient h₁ h₂ (by omega)
      omega

end Operations

end BlockDiagram
