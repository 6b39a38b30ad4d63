import BlockDiagram.Proofs.Grid.Sound
import BlockDiagram.Proofs.Scalar.Reading
import Mathlib.Data.List.Chain
import Mathlib.Data.List.Pairwise
import Mathlib.Order.Bounds.Defs
import Mathlib.Tactic.Linarith
/-! Location: in exact arithmetic the place of a scalar on an axis is the inverse of the map that takes the
index of a point to its coordinate, made linear between points and held at both ends. -/

namespace BlockDiagram

theorem first_le_of_sorted {b : List ℚ} (hsorted : b.Pairwise (· ≤ ·)) {first v : ℚ}
    (hfirst : first ∈ b.head?) (hv : v ∈ b) : first ≤ v := by
  rw [← (List.head_eq_iff_head?_eq_some (List.ne_nil_of_mem hv)).mpr hfirst]
  exact hsorted.rel_head hv

theorem le_last_of_sorted {b : List ℚ} (hsorted : b.Pairwise (· ≤ ·)) {last v : ℚ} (hv : v ∈ b)
    (hlast : last ∈ b.getLast?) : v ≤ last := by
  rw [← (List.getLast_eq_iff_getLast?_eq_some (List.ne_nil_of_mem hv)).mpr hlast]
  exact hsorted.rel_getLast hv

/-- The scalar lies in the cell that begins at point `k` of the axis, the given fraction of the way to the
next point. The cell of the last point has no end. -/
inductive InCell (b : List ℚ) (x : ℚ) : (k : Nat) → (fraction : ℚ) → Prop
  | between {k : Nat} {low high : ℚ} : b[k]? = some low → b[k + 1]? = some high → low ≤ x → x < high →
      InCell b x k ((x - low) / (high - low))
  | last {k : Nat} {low : ℚ} : b[k]? = some low → k + 1 = b.length → low ≤ x → InCell b x k 0

/-- The coordinate at a place on the axis, which is an index plus a fraction: linear from one point to the
next. -/
def coordinateAt (b : List ℚ) (place : ℚ) : ℚ :=
  match b[⌊place⌋₊]?, b[⌊place⌋₊ + 1]? with
  | some low, some high => low + Int.fract place * (high - low)
  | some low, none => low
  | none, _ => 0

namespace InCell

variable {b : List ℚ} {x y : ℚ} {k l : Nat} {f g : ℚ}

theorem cons (h : InCell b x k f) (first : ℚ) : InCell (first :: b) x (k + 1) f := by
  cases h with
  | between hlow hhigh hle hlt => exact .between hlow hhigh hle hlt
  | last hlow hlength hle => exact .last hlow (congrArg (· + 1) hlength) hle

theorem fraction_nonneg (h : InCell b x k f) : 0 ≤ f := by
  cases h with
  | between hlow hhigh hle hlt => exact div_nonneg (by linarith) (by linarith)
  | last => exact le_rfl

theorem fraction_lt_one (h : InCell b x k f) : f < 1 := by
  cases h with
  | between hlow hhigh hle hlt =>
      rw [div_lt_one (by linarith)]
      linarith
  | last => exact one_pos

theorem floor_eq (h : InCell b x k f) : ⌊(k : ℚ) + f⌋₊ = k := by
  have hnonneg := h.fraction_nonneg
  have hlt := h.fraction_lt_one
  rw [Nat.floor_eq_iff (by positivity)]
  constructor <;> linarith

theorem fract_eq (h : InCell b x k f) : Int.fract ((k : ℚ) + f) = f := by
  rw [Int.fract_natCast_add, Int.fract_eq_self.mpr ⟨h.fraction_nonneg, h.fraction_lt_one⟩]

theorem start (h : InCell b x k f) : ∃ low, b[k]? = some low ∧ low ≤ x := by
  cases h with
  | between hlow _ hle => exact ⟨_, hlow, hle⟩
  | last hlow _ hle => exact ⟨_, hlow, hle⟩

/-- The map from places to coordinates leads back to the scalar. -/
theorem coordinateAt_eq (h : InCell b x k f) {last : ℚ} (hlast : last ∈ b.getLast?) (hle : x ≤ last) :
    coordinateAt b (k + f) = x := by
  unfold coordinateAt
  rw [h.floor_eq, h.fract_eq]
  cases h with
  | between hlow hhigh hlex hlt =>
      have hwidth := sub_pos.mpr (lt_of_le_of_lt hlex hlt)
      rw [hlow, hhigh]
      dsimp only
      rw [div_mul_cancel₀ _ hwidth.ne', add_sub_cancel]
  | last hlow hlength hlex =>
      rw [hlow, List.getElem?_eq_none (Nat.le_of_eq hlength.symm)]
      rw [Option.mem_def, List.getLast?_eq_getElem?, ← hlength, Nat.add_sub_cancel, hlow] at hlast
      cases hlast
      exact le_antisymm hlex hle

section Sorted

variable (hsorted : b.Pairwise (· ≤ ·))

include hsorted

theorem le_of_sorted {v w : ℚ} (hkl : k ≤ l) (hv : b[k]? = some v) (hw : b[l]? = some w) : v ≤ w := by
  obtain ⟨hk, rfl⟩ := List.getElem?_eq_some_iff.mp hv
  obtain ⟨hl, rfl⟩ := List.getElem?_eq_some_iff.mp hw
  exact hsorted.rel_get_of_le (a := ⟨k, hk⟩) (b := ⟨l, hl⟩) hkl

/-- The cell is the last one that does not begin beyond the scalar. -/
theorem isGreatest (h : InCell b x k f) : IsGreatest {i : Nat | ∃ v, b[i]? = some v ∧ v ≤ x} k := by
  refine ⟨h.start, ?_⟩
  rintro i ⟨v, hv, hvx⟩
  by_contra hbeyond
  have hnext : k + 1 ≤ i := Nat.not_le.mp hbeyond
  cases h with
  | between hlow hhigh hle hlt =>
      have hhv := le_of_sorted hsorted hnext hhigh hv
      linarith
  | last hlow hlength hle =>
      have := (List.getElem?_eq_some_iff.mp hv).1
      omega

theorem monotone (hx : InCell b x k f) (hy : InCell b y l g) (hxy : x ≤ y) : (k : ℚ) + f ≤ l + g := by
  obtain ⟨low, hlow, hle⟩ := hx.start
  have hkl : k ≤ l := (hy.isGreatest hsorted).2 ⟨low, hlow, hle.trans hxy⟩
  rcases Nat.eq_or_lt_of_le hkl with rfl | hlt
  · -- In one cell the fractions compare.
    refine add_le_add_right ?_ _
    cases hx with
    | last => exact hy.fraction_nonneg
    | between hlow hhigh hle hlt =>
        cases hy with
        | between hlow' hhigh' _ _ =>
            cases hlow.symm.trans hlow'
            cases hhigh.symm.trans hhigh'
            refine div_le_div_of_nonneg_right (sub_le_sub_right hxy _) ?_
            linarith
        | last _ hlength =>
            have := (List.getElem?_eq_some_iff.mp hhigh).1
            omega
  · have hcast : (k : ℚ) + 1 ≤ l := by exact_mod_cast hlt
    have := hx.fraction_lt_one
    have := hy.fraction_nonneg
    linarith

/-- From the last coordinate on, the scalar is at the last point. -/
theorem at_last (h : InCell b x k f) {last : ℚ} (hlast : last ∈ b.getLast?) (hle : last ≤ x) :
    (k : ℚ) + f = ((b.length - 1 : Nat) : ℚ) := by
  cases h with
  | between _ hhigh _ hlt =>
      have := le_last_of_sorted hsorted (List.mem_of_getElem? hhigh) hlast
      linarith
  | last _ hlength => rw [add_zero, ← hlength, Nat.add_sub_cancel]

end Sorted

end InCell

/-- The place of a scalar: in a cell of the axis, or held at the first point. -/
inductive Placed (b : List ℚ) (x : ℚ) : ℚ → Prop
  | below : (∀ v ∈ b, x < v) → Placed b x 0
  | within {k : Nat} {f : ℚ} : InCell b x k f → Placed b x (k + f)

namespace Placed

variable {b : List ℚ} {x y p q : ℚ}

theorem nonneg (h : Placed b x p) : 0 ≤ p := by
  cases h with
  | below => exact le_rfl
  | within hcell => exact add_nonneg (Nat.cast_nonneg _) hcell.fraction_nonneg

theorem within_of_le (h : Placed b x p) {v : ℚ} (hv : v ∈ b) (hle : v ≤ x) :
    ∃ (k : Nat) (f : ℚ), InCell b x k f ∧ p = k + f := by
  cases h with
  | below hbelow => exact absurd (hbelow v hv) (not_lt.mpr hle)
  | within hcell => exact ⟨_, _, hcell, rfl⟩

theorem of_below (h : Placed b x p) (hbelow : ∀ v ∈ b, x < v) : p = 0 := by
  cases h with
  | below => rfl
  | within hcell =>
      obtain ⟨low, hlow, hle⟩ := hcell.start
      exact absurd (hbelow low (List.mem_of_getElem? hlow)) (not_lt.mpr hle)

variable (hsorted : b.Pairwise (· ≤ ·))

include hsorted

theorem of_beyond (h : Placed b x p) {last : ℚ} (hlast : last ∈ b.getLast?) (hle : last ≤ x) :
    p = ((b.length - 1 : Nat) : ℚ) := by
  obtain ⟨k, f, hcell, rfl⟩ := h.within_of_le (List.mem_of_getLast? hlast) hle
  exact hcell.at_last hsorted hlast hle

theorem monotone (hx : Placed b x p) (hy : Placed b y q) (hxy : x ≤ y) : p ≤ q := by
  cases hx with
  | below => exact hy.nonneg
  | within hcell =>
      obtain ⟨low, hlow, hle⟩ := hcell.start
      obtain ⟨l, g, hcell', rfl⟩ := hy.within_of_le (List.mem_of_getElem? hlow) (hle.trans hxy)
      exact hcell.monotone hsorted hcell' hxy

end Placed

/-- Places locate scalars on an axis: every place is on the axis, the map to places is monotone and inverse
to the map to coordinates, and outside of the axis it is held at the ends. -/
structure Locates (b : List ℚ) (place : ℚ → ℚ) : Prop where
  nonneg : ∀ x, 0 ≤ place x
  le_last : ∀ x, place x ≤ ((b.length - 1 : Nat) : ℚ)
  monotone : Monotone place
  index : ∀ x, (∃ v ∈ b, v ≤ x) → IsGreatest {i : Nat | ∃ v, b[i]? = some v ∧ v ≤ x} ⌊place x⌋₊
  index_zero : ∀ x, (∀ v ∈ b, x < v) → ⌊place x⌋₊ = 0
  inverse : ∀ first ∈ b.head?, ∀ last ∈ b.getLast?, ∀ x, first ≤ x → x ≤ last →
    coordinateAt b (place x) = x
  below : ∀ first ∈ b.head?, ∀ x, x < first → place x = 0
  beyond : ∀ last ∈ b.getLast?, ∀ x, last ≤ x → place x = ((b.length - 1 : Nat) : ℚ)

theorem Locates.of_placed {b : List ℚ} (hne : b ≠ []) (hsorted : b.Pairwise (· ≤ ·)) {place : ℚ → ℚ}
    (h : ∀ x, Placed b x (place x)) : Locates b place := by
  have hmonotone : Monotone place := fun x y hxy => (h x).monotone hsorted (h y) hxy
  have hbeyond : ∀ last ∈ b.getLast?, ∀ x, last ≤ x → place x = ((b.length - 1 : Nat) : ℚ) :=
    fun last hlast x hle => (h x).of_beyond hsorted hlast hle
  constructor
  case nonneg => exact fun x => (h x).nonneg
  case le_last =>
    intro x
    have hlast : b.getLast hne ∈ b.getLast? := List.getLast?_eq_some_getLast hne
    rw [← hbeyond _ hlast _ (le_max_left _ x)]
    exact hmonotone (le_max_right _ x)
  case monotone => exact hmonotone
  case index =>
    rintro x ⟨v, hv, hle⟩
    obtain ⟨k, f, hcell, hplace⟩ := (h x).within_of_le hv hle
    rw [hplace, hcell.floor_eq]
    exact hcell.isGreatest hsorted
  case index_zero =>
    intro x hbelow
    rw [(h x).of_below hbelow, Nat.floor_zero]
  case inverse =>
    intro first hfirst last hlast x hle hle'
    obtain ⟨k, f, hcell, hplace⟩ := (h x).within_of_le (List.mem_of_mem_head? hfirst) hle
    rw [hplace]
    exact hcell.coordinateAt_eq hlast hle'
  case below =>
    intro first hfirst x hlt
    exact (h x).of_below fun v hv => hlt.trans_le (first_le_of_sorted hsorted hfirst hv)
  case beyond => exact hbeyond

/-- The operation divides by positive numbers; of other quotients nothing is said. -/
def DividesByPositive (divide : ℚ → ℚ → ℚ) : Prop := ∀ a b : ℚ, 0 < b → divide a b = a / b

theorem firstDescent_sorted {α : Type} [Arithmetic α] {read : α → ℚ} (hread : ReadsExactly read)
    {values : List α} (hfinite : ∀ v ∈ values, Arithmetic.isFinite v = true)
    (h : firstDescent values = none) : (values.map read).Pairwise (· ≤ ·) := by
  rw [← List.isChain_iff_pairwise, List.isChain_map]
  fun_induction firstDescent values with
  | case1 a b rest hlt => cases h
  | case2 a b rest hlt ih =>
      rw [List.isChain_cons_cons]
      have ha := hfinite a List.mem_cons_self
      have hb := hfinite b (List.mem_cons_of_mem a List.mem_cons_self)
      refine ⟨?_, ih (fun v hv => hfinite v (List.mem_cons_of_mem a hv)) (Option.map_eq_none_iff.mp h)⟩
      exact not_lt.mp fun hba => hlt ((hread b a hb ha).mpr hba)
  | case3 values hshort =>
      rcases values with _ | ⟨a, _ | ⟨b, rest⟩⟩
      · exact .nil
      · exact .singleton a
      · exact absurd rfl (hshort a b rest)

namespace BreakpointSet

variable {α β : Type}

/-- The set with every coordinate replaced by what it is read as. -/
def map (read : α → β) (s : BreakpointSet α) : BreakpointSet β :=
  { id := s.id, values := s.values.map read, users := s.users }

theorem ofValues_sorted [Arithmetic α] {read : α → ℚ} (hread : ReadsExactly read) {id : String}
    {values : List α} {s : BreakpointSet α} (h : ofValues id values = .ok s) :
    (values.map read).Pairwise (· ≤ ·) := by
  unfold ofValues at h
  split at h
  · cases h
  · split at h
    · cases h
    · rename_i hfinite
      split at h
      · cases h
      · refine firstDescent_sorted hread (fun v hv => ?_) ‹_›
        simpa using List.find?_eq_none.mp hfinite v hv

theorem position_cons (divide : ℚ → ℚ → ℚ) (x : ℚ) (i : Nat) (low high : ℚ) (rest : List ℚ) :
    @position ℚ (dividingBy divide) x i low (high :: rest) =
      if x < high then (i : ℚ) + divide (x - low) (high - low)
      else @position ℚ (dividingBy divide) x (i + 1) high rest := by
  change (if decide (x < high) = true then _ else _) = _
  simp only [decide_eq_true_eq]
  rfl

/-- From a coordinate that is not above the scalar, the search ends in the cell of the scalar, and of the
widths it divides by that of the cell only. -/
theorem position_inCell {x low : ℚ} (hle : low ≤ x) (i : Nat) (rest : List ℚ) :
    ∃ (k : Nat) (f : ℚ), InCell (low :: rest) x k f ∧ ∀ divide, DividesByPositive divide →
      @position ℚ (dividingBy divide) x i low rest = ((i + k : Nat) : ℚ) + f := by
  induction rest generalizing low i with
  | nil => exact ⟨0, 0, .last rfl rfl hle, fun divide _ => (add_zero (i : ℚ)).symm⟩
  | cons high rest ih =>
      by_cases hlt : x < high
      · refine ⟨0, _, .between rfl rfl hle hlt, fun divide hdivide => ?_⟩
        have hwidth : 0 < high - low := sub_pos.mpr (lt_of_le_of_lt hle hlt)
        rw [position_cons, if_pos hlt, hdivide _ _ hwidth, Nat.add_zero]
      · obtain ⟨k, f, hcell, hposition⟩ := ih (not_lt.mp hlt) (i + 1)
        refine ⟨k + 1, f, hcell.cons low, fun divide hdivide => ?_⟩
        rw [position_cons, if_neg hlt, hposition divide hdivide, Nat.add_right_comm i 1 k,
          Nat.add_assoc i k 1]

theorem normalize_placed {s : BreakpointSet ℚ} (hne : s.values ≠ []) (hsorted : s.values.Pairwise (· ≤ ·))
    (x : ℚ) : ∃ p, Placed s.values x p ∧ ∀ divide, DividesByPositive divide →
      @normalize ℚ (dividingBy divide) s x = .ok p := by
  unfold normalize
  generalize s.values = b at hne hsorted
  cases b with
  | nil => exact absurd rfl hne
  | cons first rest =>
      by_cases hlt : x < first
      · refine ⟨0, .below fun v hv => hlt.trans_le (first_le_of_sorted hsorted rfl hv), fun divide _ => ?_⟩
        exact congrArg Except.ok (if_pos (decide_eq_true hlt))
      · obtain ⟨k, f, hcell, hposition⟩ := position_inCell (not_lt.mp hlt) 0 rest
        refine ⟨k + f, .within hcell, fun divide hdivide => congrArg Except.ok ?_⟩
        rw [← Nat.zero_add k, ← hposition divide hdivide]
        exact if_neg (mt of_decide_eq_true hlt)

/-- Normalization over an accepted set of coordinates is the inverse of the map to coordinates. The place
is the same whatever the quotients by anything but positive numbers are: there is no such division. -/
theorem normalization_inverts [Arithmetic α] {read : α → ℚ} (hread : ReadsExactly read) {id : String}
    {values : List α} {s : BreakpointSet α} (h : ofValues id values = .ok s) :
    ∃ place : ℚ → ℚ, Locates (values.map read) place ∧ ∀ divide, DividesByPositive divide →
      ∀ x, @normalize ℚ (dividingBy divide) (s.map read) x = .ok (place x) := by
  obtain ⟨-, hvalues, hne, -⟩ := ofValues_ok h
  have hsorted := ofValues_sorted hread h
  rw [← hvalues] at hne hsorted ⊢
  have hne' : (s.map read).values ≠ [] := mt List.map_eq_nil_iff.mp hne
  choose place hplaced hnormalize using normalize_placed hne' hsorted
  exact ⟨place, .of_placed hne' hsorted hplaced, fun divide hdivide x => hnormalize x divide hdivide⟩

/-- Four points, two of them at one coordinate. -/
def stepped : BreakpointSet Float := { id := "REP", values := [0, 10, 10, 20] }

theorem stepped_inverted : ∃ place : ℚ → ℚ, Locates (stepped.values.map exactDouble) place ∧
    (∀ divide, DividesByPositive divide →
      ∀ x, @normalize ℚ (dividingBy divide) (stepped.map exactDouble) x = .ok (place x)) ∧
    place 5 = 1 / 2 ∧ place 10 = 2 := by
  have haccepted : ofValues "REP" stepped.values = .ok stepped := by with_unfolding_all rfl
  obtain ⟨place, hlocates, hplace⟩ := normalization_inverts readsExactly_exactDouble haccepted
  have hexact := hplace (· / ·) fun _ _ _ => rfl
  refine ⟨place, hlocates, hplace, ?_, ?_⟩
  · rw [← Except.ok.inj (hexact 5)]
    decide +kernel
  · rw [← Except.ok.inj (hexact 10)]
    decide +kernel

end BreakpointSet

end BlockDiagram
