import BlockDiagram.Handle
import Mathlib.Data.List.Basic
import Mathlib.Logic.Function.Basic
/-! Names: the searches for a free name end outside the names that are taken, and the entry of an arena
that carries a name is found by it. -/

namespace BlockDiagram

theorem repr_injective : Function.Injective Nat.repr := by
  intro a b h
  have hdigits : Nat.toDigits 10 a = Nat.toDigits 10 b := by
    simpa only [Nat.repr, String.ofList_inj] using h
  have hread := congrArg (Nat.ofDigitChars 10 · 0) hdigits
  simpa only [Nat.ofDigitChars_ten_toDigits] using hread

/-- Numbers written behind one and the same text tell the results apart. -/
theorem numbered_injective (text : String) :
    Function.Injective fun n : Nat => text ++ n.repr := by
  intro a b h
  exact repr_injective ((String.append_right_inj text).mp h)

theorem start_le_firstFree (name : Nat → String) (taken : List String) (start : Nat) :
    start ≤ firstFree name taken start := by
  fun_induction firstFree name taken start with
  | case1 taken start hmem ih => exact Nat.le_of_succ_le ih
  | case2 taken start hfree => exact Nat.le_refl start

/-- A name that was struck off on the way belongs to a smaller number, so it is not the result. -/
theorem firstFree_not_mem {name : Nat → String} (hname : Function.Injective name)
    (taken : List String) (start : Nat) :
    name (firstFree name taken start) ∉ taken := by
  fun_induction firstFree name taken start with
  | case1 taken start hmem ih =>
      intro hin
      have hle := start_le_firstFree name (taken.erase (name start)) (start + 1)
      have hne : name (firstFree name (taken.erase (name start)) (start + 1)) ≠ name start := by
        intro heq
        have := hname heq
        omega
      exact ih ((List.mem_erase_of_ne hne).mpr hin)
  | case2 taken start hfree => exact hfree

/-- Only the names of numbers from `start` on matter. -/
theorem firstFree_congr {name : Nat → String} (hname : Function.Injective name)
    {taken taken' : List String} {start : Nat}
    (h : ∀ n, start ≤ n → (name n ∈ taken ↔ name n ∈ taken')) :
    firstFree name taken start = firstFree name taken' start := by
  fun_induction firstFree name taken start generalizing taken' with
  | case1 taken start hmem ih =>
      rw [firstFree.eq_def name taken' start, dif_pos ((h start (Nat.le_refl start)).mp hmem)]
      refine ih fun n hn => ?_
      have hne : name n ≠ name start := fun heq => Nat.not_succ_le_self start (hname heq ▸ hn)
      rw [List.mem_erase_of_ne hne, List.mem_erase_of_ne hne]
      exact h n (Nat.le_of_succ_le hn)
  | case2 taken start hfree =>
      rw [firstFree.eq_def name taken' start,
        dif_neg fun hmem => hfree ((h start (Nat.le_refl start)).mpr hmem)]

theorem freshName_not_mem (taken : List String) (base : String) :
    freshName taken base ∉ taken := by
  unfold freshName
  split
  · exact firstFree_not_mem (numbered_injective (base ++ "_")) taken 1
  · assumption

/-- Only which names are taken matters, neither their order nor how often they are listed. -/
theorem freshName_congr {taken taken' : List String} (h : ∀ v, v ∈ taken ↔ v ∈ taken')
    (base : String) : freshName taken base = freshName taken' base := by
  have hfirst : firstFree (fun n : Nat => s!"{base}_{n}") taken 1 =
      firstFree (fun n : Nat => s!"{base}_{n}") taken' 1 :=
    firstFree_congr (numbered_injective (base ++ "_")) fun n _ => h _
  simp only [freshName, h base, hfirst]

section Lookup

variable {β : Type} {xs : Array β} {key : β → String} {k : String} {i : Nat}

theorem entry_of_findIdx (h : (xs.findIdx? fun x => key x == k) = some i) :
    ∃ x, xs[i]? = some x ∧ key x = k := by
  obtain ⟨hi, hk, -⟩ := Array.findIdx?_eq_some_iff_getElem.mp h
  exact ⟨xs[i], Array.getElem?_eq_getElem hi, beq_iff_eq.mp hk⟩

theorem findIdx_isSome {x : β} (hx : xs[i]? = some x) (hk : key x = k) :
    ∃ j, (xs.findIdx? fun x => key x == k) = some j := by
  cases h : xs.findIdx? fun x => key x == k with
  | some j => exact ⟨j, rfl⟩
  | none =>
      have hfree := Array.findIdx?_eq_none_iff.mp h x (Array.mem_of_getElem? hx)
      rw [hk] at hfree
      simp at hfree

/-- Where no two entries share a key, the entry found is the one that carries it. -/
theorem findIdx_eq_some_iff
    (distinct : ∀ (i j : Nat) (x y : β), xs[i]? = some x → xs[j]? = some y → key x = key y → i = j) :
    (xs.findIdx? fun x => key x == k) = some i ↔ ∃ x, xs[i]? = some x ∧ key x = k := by
  constructor
  · exact entry_of_findIdx
  · rintro ⟨x, hx, hk⟩
    obtain ⟨j, hj⟩ := findIdx_isSome hx hk
    obtain ⟨y, hy, hyk⟩ := entry_of_findIdx hj
    have hij : i = j := distinct i j x y hx hy (hk.trans hyk.symm)
    rw [hij]
    exact hj

end Lookup

end BlockDiagram
