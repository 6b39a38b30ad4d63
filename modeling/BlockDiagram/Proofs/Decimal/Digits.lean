import BlockDiagram.Digits
import Mathlib.Algebra.Ring.Nat
import Mathlib.Data.List.Basic
/-! Digits: what the digits of a number read as, with zeros around them or cut in two. -/

namespace BlockDiagram.Literal

theorem natOfDigits_eq (cs : List Char) : natOfDigits cs = Nat.ofDigitChars 10 cs 0 :=
  Nat.ofDigitChars_eq_foldl.symm

theorem toList_toString (n : Nat) : (toString n).toList = Nat.toDigits 10 n := by
  rw [Nat.toString_eq_repr, Nat.toList_repr]

theorem natOfDigits_toString (n : Nat) : natOfDigits (toString n).toList = n := by
  rw [toList_toString, natOfDigits_eq, Nat.ofDigitChars_ten_toDigits]

theorem natOfDigits_append (cs ds : List Char) :
    natOfDigits (cs ++ ds) = 10 ^ ds.length * natOfDigits cs + natOfDigits ds := by
  rw [natOfDigits_eq, natOfDigits_eq, natOfDigits_eq, Nat.ofDigitChars_append,
    Nat.ofDigitChars_eq_ofDigitChars_zero]

theorem natOfDigits_zeros (n : Nat) : natOfDigits (List.replicate n '0') = 0 := by
  rw [natOfDigits_eq, Nat.ofDigitChars_replicate_zero, Nat.mul_zero]

theorem natOfDigits_zeros_append (n : Nat) (cs : List Char) :
    natOfDigits (List.replicate n '0' ++ cs) = natOfDigits cs := by
  rw [natOfDigits_append, natOfDigits_zeros, Nat.mul_zero, Nat.zero_add]

theorem isDigit_of_mem_toString {n : Nat} {c : Char} (h : c ∈ (toString n).toList) : isDigit c = true := by
  rw [toList_toString] at h
  exact Nat.isDigit_of_mem_toDigits (by decide) (by decide) h

theorem toString_ne_nil (n : Nat) : (toString n).toList ≠ [] := by
  rw [toList_toString]
  exact Nat.toDigits_ne_nil

theorem natOfDigits_lt {cs : List Char} (h : ∀ c ∈ cs, isDigit c = true) :
    natOfDigits cs < 10 ^ cs.length := by
  induction cs with
  | nil => decide
  | cons c cs ih =>
      have hrest := ih fun d hd => h d (List.mem_cons_of_mem c hd)
      have hdigit : natOfDigits [c] ≤ 9 := by
        have hc := h c List.mem_cons_self
        simp only [isDigit, Bool.and_eq_true, decide_eq_true_eq, Char.le_def, UInt32.le_iff_toNat_le] at hc
        change 10 * 0 + (c.toNat - 48) ≤ 9
        have hlow : 48 ≤ c.toNat := hc.1
        have hhigh : c.toNat ≤ 57 := hc.2
        omega
      have hbound : 10 ^ cs.length * natOfDigits [c] ≤ 10 ^ cs.length * 9 := Nat.mul_le_mul_left _ hdigit
      rw [← List.singleton_append, natOfDigits_append, List.length_append, List.length_singleton,
        Nat.add_comm 1, Nat.pow_succ]
      omega

/-- A number of more than one digit does not begin with a zero. -/
theorem head?_toString {n : Nat} (h : (toString n).toList.head? = some '0') :
    (toString n).toList.length = 1 := by
  cases hdigits : (toString n).toList with
  | nil => exact absurd hdigits (toString_ne_nil n)
  | cons c cs =>
      rw [hdigits] at h
      obtain rfl : c = '0' := Option.some.inj h
      by_contra hlong
      have hshort : 0 < cs.length := Nat.pos_of_ne_zero fun hzero => hlong (by rw [List.length_cons, hzero])
      have hvalue : natOfDigits cs = n := by
        have hread := natOfDigits_toString n
        rw [hdigits, ← List.singleton_append, natOfDigits_append] at hread
        exact (Nat.zero_add _).symm.trans hread
      have hsmall : n < 10 ^ cs.length :=
        hvalue ▸ natOfDigits_lt fun d hd =>
          isDigit_of_mem_toString (n := n) (hdigits ▸ List.mem_cons_of_mem _ hd)
      have hlength := (Nat.length_toDigits_le_iff (by decide) hshort).mpr hsmall
      rw [← toList_toString, hdigits, List.length_cons] at hlength
      omega

theorem lt_pow_length (n : Nat) : n < 10 ^ (toString n).length := by
  have hlt := natOfDigits_lt fun c hc => isDigit_of_mem_toString (n := n) hc
  rwa [natOfDigits_toString, String.length_toList] at hlt

/-- The number of digits tells the size of a number. -/
theorem length_toString {n : Nat} (h : 0 < n) :
    0 < (toString n).length ∧ 10 ^ ((toString n).length - 1) ≤ n := by
  rw [← String.length_toList]
  refine ⟨List.length_pos_iff.mpr (toString_ne_nil n), ?_⟩
  by_cases hlong : 0 < (toString n).toList.length - 1
  · by_contra hsmall
    have hlength := (Nat.length_toDigits_le_iff (by decide) hlong).mpr (Nat.lt_of_not_le hsmall)
    rw [← toList_toString] at hlength
    omega
  · rw [Nat.eq_zero_of_not_pos hlong]
    exact h

end BlockDiagram.Literal
