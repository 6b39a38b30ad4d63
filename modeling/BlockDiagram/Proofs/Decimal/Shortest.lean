import BlockDiagram.Proofs.Decimal.Nearest
/-! Shortest decimals: the decimal that is written for a magnitude rounds to it, and seventeen digits are
always enough. -/

namespace BlockDiagram

namespace Quotient

/-- The rational number. -/
def value (a : Quotient) : ℚ := a.num / a.den

theorem scaled_value (n base : Nat) (hbase : 0 < base) (k : Int) :
    (scaled n base k).value = n * (base : ℚ) ^ k ∧ 0 < (scaled n base k).den := by
  rw [scaled]
  split
  · next hk =>
      have hpower : (base : ℚ) ^ k = base ^ k.toNat := by
        rw [← zpow_natCast, Int.toNat_of_nonneg hk]
      refine ⟨?_, Nat.one_pos⟩
      change ((n * base ^ k.toNat : Nat) : ℚ) / (1 : Nat) = _
      rw [hpower]
      push_cast
      rw [div_one]
  · next hk =>
      have hpower : (base : ℚ) ^ k = ((base : ℚ) ^ (-k).toNat)⁻¹ := by
        rw [← zpow_natCast, ← zpow_neg, Int.toNat_of_nonneg (by omega), neg_neg]
      refine ⟨?_, Nat.pow_pos hbase⟩
      change (n : ℚ) / (base ^ (-k).toNat : Nat) = _
      rw [hpower, ← div_eq_mul_inv]
      push_cast
      rfl

theorem le_iff {a b : Quotient} (ha : 0 < a.den) (hb : 0 < b.den) : a.le b = true ↔ a.value ≤ b.value := by
  rw [le, decide_eq_true_eq, value, value, div_le_div_iff₀ (by exact_mod_cast ha) (by exact_mod_cast hb)]
  exact_mod_cast Iff.rfl

theorem lt_iff {a b : Quotient} (ha : 0 < a.den) (hb : 0 < b.den) : a.lt b = true ↔ a.value < b.value := by
  rw [lt, decide_eq_true_eq, value, value, div_lt_div_iff₀ (by exact_mod_cast ha) (by exact_mod_cast hb)]
  exact_mod_cast Iff.rfl

theorem num_pos {a : Quotient} (h : 0 < a.value) : 0 < a.num := by
  refine Nat.pos_of_ne_zero fun hzero => h.ne' ?_
  rw [value, hzero, Nat.cast_zero, zero_div]

/-- Rounding goes to a whole number no further than a half away. -/
theorem round_near {a : Quotient} (h : 0 < a.den) :
    (a.round : ℚ) - 1 / 2 ≤ a.value ∧ a.value ≤ a.round + 1 / 2 := by
  have hpos : (0 : ℚ) < a.den := by exact_mod_cast h
  have hsum : (a.num : ℚ) = a.den * (a.num / a.den : Nat) + (a.num % a.den : Nat) := by
    exact_mod_cast (Nat.div_add_mod a.num a.den).symm
  have hrest : ((a.num % a.den : Nat) : ℚ) < a.den := by exact_mod_cast Nat.mod_lt a.num h
  have hnonneg : (0 : ℚ) ≤ (a.num % a.den : Nat) := Nat.cast_nonneg _
  rw [value, le_div_iff₀ hpos, div_le_iff₀ hpos, round]
  split
  · next hup =>
      have hhalf : (a.den : ℚ) ≤ 2 * (a.num % a.den : Nat) := by
        simp only [Bool.or_eq_true, Bool.and_eq_true, decide_eq_true_eq] at hup
        have hnat : a.den ≤ 2 * (a.num % a.den) := by omega
        exact_mod_cast hnat
      push_cast
      constructor <;> nlinarith
  · next hdown =>
      have hhalf : 2 * ((a.num % a.den : Nat) : ℚ) ≤ a.den := by
        simp only [Bool.or_eq_true, Bool.and_eq_true, decide_eq_true_eq] at hdown
        have hnat : 2 * (a.num % a.den) ≤ a.den := by omega
        exact_mod_cast hnat
      constructor <;> nlinarith

/-- No number is smaller than its decimal exponent says. -/
theorem decimalExponent_le {a : Quotient} (hnum : 0 < a.num) (hden : 0 < a.den) :
    (10 : ℚ) ^ (a.decimalExponent - 1) ≤ a.value := by
  have hpos : (0 : ℚ) < a.den := by exact_mod_cast hden
  have hcount : ∀ n, (Nat.toDigits 10 n).length = (toString n).length := fun n => by
    rw [← Literal.toList_toString, String.length_toList]
  rw [decimalExponent, value, le_div_iff₀ hpos]
  dsimp only
  split
  · next hlarge =>
      obtain ⟨hpositive, hlow⟩ := Literal.length_toString (Nat.div_pos hlarge hden)
      rw [hcount]
      generalize (toString (a.num / a.den)).length = size at hpositive hlow
      have hexponent : (size : Int) - 1 = (size - 1 : Nat) := by omega
      have hproduct : 10 ^ (size - 1) * a.den ≤ a.num :=
        (Nat.mul_le_mul_right _ hlow).trans (Nat.div_mul_le_self a.num a.den)
      rw [hexponent, zpow_natCast]
      exact_mod_cast hproduct
  · next hsmall =>
      have hlt := Literal.lt_pow_length ((a.den - 1) / a.num)
      rw [hcount]
      generalize (toString ((a.den - 1) / a.num)).length = size at hlt
      rw [Nat.div_lt_iff_lt_mul hnum] at hlt
      have hproduct : (a.den : ℚ) ≤ 10 ^ size * a.num := by
        have hnat : a.den ≤ 10 ^ size * a.num := by omega
        exact_mod_cast hnat
      have hexponent : (1 : Int) - size - 1 = -(size : Int) := by omega
      rw [hexponent, zpow_neg, zpow_natCast, inv_mul_le_iff₀ (by positivity)]
      exact hproduct

end Quotient

namespace BinaryMagnitude

variable {b : BinaryMagnitude}

theorem isRoundedFrom_iff (hb : b.Canonical) {x : Quotient} (hx : 0 < x.den) :
    b.isRoundedFrom x = true ↔ b.Rounds x.value := by
  have hpos : (0 : ℚ) < 2 ^ b.exponent := by positivity
  have hquarter : (2 : ℚ) ^ (b.exponent - 2) = 2 ^ b.exponent / 4 := by
    rw [zpow_sub₀ (by norm_num)]
    norm_num
  obtain ⟨hlow, hlowden⟩ := Quotient.scaled_value (b.quarters - if b.narrowBelow then 1 else 2) 2
    (by decide) (b.exponent - 2)
  obtain ⟨hhigh, hhighden⟩ := Quotient.scaled_value (b.quarters + 2) 2 (by decide) (b.exponent - 2)
  have hgap : ((b.quarters - (if b.narrowBelow then 1 else 2) : Nat) : ℚ) = 4 * (b.mantissa - b.gap) := by
    have hpositive := hb.positive
    rw [quarters, gap]
    split
    · rw [Nat.cast_sub (by omega)]
      push_cast
      ring
    · rw [Nat.cast_sub (by omega)]
      push_cast
      ring
  have hlow' : (Quotient.scaled (b.quarters - if b.narrowBelow then 1 else 2) 2 (b.exponent - 2)).value =
      (b.mantissa - b.gap) * 2 ^ b.exponent := by
    rw [hlow, hgap]
    push_cast
    rw [hquarter]
    ring
  have hhigh' : (Quotient.scaled (b.quarters + 2) 2 (b.exponent - 2)).value =
      (b.mantissa + 1 / 2) * 2 ^ b.exponent := by
    rw [hhigh, quarters]
    push_cast
    rw [hquarter]
    ring
  rw [isRoundedFrom]
  split
  · next heven =>
      rw [Bool.and_eq_true, Quotient.le_iff hlowden hx, Quotient.le_iff hx hhighden, hlow', hhigh',
        ← le_div_iff₀ hpos, ← div_le_iff₀ hpos]
      exact ⟨fun h => ⟨h.1, h.2, fun hodd => by omega⟩, fun h => ⟨h.low, h.high⟩⟩
  · next hodd =>
      rw [Bool.and_eq_true, Quotient.lt_iff hlowden hx, Quotient.lt_iff hx hhighden, hlow', hhigh',
        ← lt_div_iff₀ hpos, ← div_lt_iff₀ hpos]
      exact ⟨fun h => ⟨h.1.le, h.2.le, fun _ => h⟩, fun h => h.strict (by omega)⟩

theorem toQuotient_value (b : BinaryMagnitude) :
    b.toQuotient.value = b.mantissa * 2 ^ b.exponent ∧ 0 < b.toQuotient.den := by
  obtain ⟨hvalue, hden⟩ := Quotient.scaled_value b.mantissa 2 (by decide) b.exponent
  exact ⟨by rw [toQuotient, hvalue]; push_cast; rfl, hden⟩

/-- What is found on a grid rounds to the magnitude. -/
theorem onGrid?_rounds (hb : b.Canonical) {k : Int} {d : Decimal} (h : b.onGrid? k = some d) :
    b.Rounds (d.digits * 10 ^ d.exponent) := by
  rw [onGrid?] at h
  obtain ⟨n, hfound, rfl⟩ := Option.map_eq_some_iff.mp h
  obtain ⟨hvalue, hden⟩ := Quotient.scaled_value n 10 (by decide) k
  have hrounded : b.isRoundedFrom (.scaled n 10 k) = true := by
    have hmeets := List.find?_some hfound
    exact hmeets
  have hrounds := (isRoundedFrom_iff hb hden).mp hrounded
  rw [hvalue] at hrounds
  exact_mod_cast hrounds

/-- On a grid of seventeen digits, the point nearest the magnitude rounds to it. -/
theorem rounds_of_near (hb : b.Canonical) {q unit : ℚ}
    (hunit : unit * 10 ^ 16 ≤ b.mantissa * 2 ^ b.exponent)
    (hlow : b.mantissa * 2 ^ b.exponent - unit / 2 ≤ q)
    (hhigh : q ≤ b.mantissa * 2 ^ b.exponent + unit / 2) :
    b.Rounds q := by
  have hpos : (0 : ℚ) < 2 ^ b.exponent := by positivity
  have hmantissa : (b.mantissa : ℚ) * 2 ^ b.exponent ≤ 2 ^ 53 * 2 ^ b.exponent :=
    mul_le_mul_of_nonneg_right (by exact_mod_cast hb.below.le) hpos.le
  have hhalf : unit / 2 < 2 ^ b.exponent / 2 := by linarith
  have hgap : unit / 2 < b.gap * 2 ^ b.exponent := by
    rw [gap]
    split
    · next hnarrow =>
        rw [(hb.narrow.mp hnarrow).1] at hunit
        push_cast at hunit
        linarith
    · linarith
  have hbelow : b.mantissa - b.gap < q / 2 ^ b.exponent := by
    rw [lt_div_iff₀ hpos]
    linarith
  have habove : q / 2 ^ b.exponent < b.mantissa + 1 / 2 := by
    rw [div_lt_iff₀ hpos]
    linarith
  exact ⟨hbelow.le, habove.le, fun _ => ⟨hbelow, habove⟩⟩

theorem onGrid?_isSome (hb : b.Canonical) {k : Int}
    (hk : (10 : ℚ) ^ k * 10 ^ 16 ≤ b.mantissa * 2 ^ b.exponent) :
    (b.onGrid? k).isSome = true := by
  obtain ⟨hvalue, hden⟩ := b.toQuotient_value
  obtain ⟨hunit, hunitden⟩ := Quotient.scaled_value 1 10 (by decide) k
  have hpower : (0 : ℚ) < 10 ^ k := by positivity
  rw [Nat.cast_one, one_mul, Nat.cast_ofNat] at hunit
  have hunitnum : 0 < (Quotient.scaled 1 10 k).num := Quotient.num_pos (hunit ▸ hpower)
  rw [onGrid?, Option.isSome_map, List.find?_isSome]
  refine ⟨_, List.mem_cons_self, ?_⟩
  -- The steps from zero to the magnitude, and the whole number nearest them.
  generalize hsteps : (⟨b.toQuotient.num * (Quotient.scaled 1 10 k).den,
    b.toQuotient.den * (Quotient.scaled 1 10 k).num⟩ : Quotient) = steps
  have hstepsden : 0 < steps.den := hsteps ▸ Nat.mul_pos hden hunitnum
  have hstepsvalue : steps.value * 10 ^ k = b.mantissa * 2 ^ b.exponent := by
    rw [← hvalue, ← hunit, ← hsteps]
    simp only [Quotient.value]
    have h1 : (b.toQuotient.den : ℚ) ≠ 0 := by exact_mod_cast hden.ne'
    have h2 : ((Quotient.scaled 1 10 k).den : ℚ) ≠ 0 := by exact_mod_cast hunitden.ne'
    have h3 : ((Quotient.scaled 1 10 k).num : ℚ) ≠ 0 := by exact_mod_cast hunitnum.ne'
    push_cast
    field_simp
  obtain ⟨hlow, hhigh⟩ := Quotient.round_near hstepsden
  obtain ⟨hpoint, hpointden⟩ := Quotient.scaled_value steps.round 10 (by decide) k
  rw [isRoundedFrom_iff hb hpointden, hpoint, Nat.cast_ofNat]
  refine rounds_of_near hb hk ?_ ?_
  · rw [← hstepsvalue]
    have := mul_le_mul_of_nonneg_right hhigh hpower.le
    linarith
  · rw [← hstepsvalue]
    have := mul_le_mul_of_nonneg_right hlow hpower.le
    linarith

theorem shortestFrom_rounds (hb : b.Canonical) {top : Int}
    (htop : (10 : ℚ) ^ (top - 1) ≤ b.mantissa * 2 ^ b.exponent) {used count : Nat} (hcount : 0 < count)
    (hsum : used + count = 17) :
    b.Rounds ((b.shortestFrom top used count).digits * 10 ^ (b.shortestFrom top used count).exponent) := by
  induction count generalizing used with
  | zero => exact absurd hcount (Nat.lt_irrefl 0)
  | succ count ih =>
      rw [shortestFrom]
      split
      · next d hfound => exact onGrid?_rounds hb hfound
      · next hnone =>
          by_cases hlast : count = 0
          · have hgrid : (10 : ℚ) ^ (top - (used + 1)) * 10 ^ 16 ≤ b.mantissa * 2 ^ b.exponent := by
              have hpower : (10 : ℚ) ^ (top - (used + 1)) * 10 ^ 16 = 10 ^ (top - 1) := by
                rw [← zpow_natCast, ← zpow_add₀ (by norm_num)]
                congr 1
                omega
              rwa [hpower]
            have hsome := onGrid?_isSome hb hgrid
            rw [hnone] at hsome
            cases hsome
          · exact ih (Nat.pos_of_ne_zero hlast) (by omega)

end BinaryMagnitude

namespace Decimal

variable {b : BinaryMagnitude}

theorem trim_value (d : Decimal) :
    (d.trim.digits * 10 ^ d.trim.exponent : ℚ) = d.digits * 10 ^ d.exponent := by
  rw [trim]
  split
  · next h =>
      have hdigits : (d.digits : ℚ) = (d.digits / 10 : Nat) * 10 := by
        have hnat : d.digits = d.digits / 10 * 10 := by omega
        exact_mod_cast hnat
      rw [trim_value ⟨d.digits / 10, d.exponent + 1⟩, zpow_add_one₀ (by norm_num)]
      dsimp only
      rw [hdigits]
      ring
  · rfl
termination_by d.digits
decreasing_by exact Nat.div_lt_self (by omega) (by decide)

/-- The shortest decimal rounds to its magnitude, and has a digit other than zero. -/
theorem shortest_rounds (hb : b.Canonical) :
    b.Rounds ((shortest b).digits * 10 ^ (shortest b).exponent) ∧ 0 < (shortest b).digits := by
  obtain ⟨hvalue, hden⟩ := b.toQuotient_value
  have hnum : 0 < b.toQuotient.num := by
    have hmantissa : (0 : ℚ) < b.mantissa := by exact_mod_cast hb.positive
    exact Quotient.num_pos (hvalue ▸ by positivity)
  have hrounds : b.Rounds ((shortest b).digits * 10 ^ (shortest b).exponent) := by
    rw [shortest, trim_value]
    exact BinaryMagnitude.shortestFrom_rounds hb (hvalue ▸ Quotient.decimalExponent_le hnum hden)
      (by decide) rfl
  refine ⟨hrounds, Nat.pos_of_ne_zero fun hzero => ?_⟩
  have hpositive := (hrounds.range hb).1
  rw [hzero, Nat.cast_zero, zero_mul] at hpositive
  exact absurd hpositive (not_le_of_gt (by positivity))

end Decimal

end BlockDiagram
