import BlockDiagram.Proofs.Grid.Nested
import BlockDiagram.Proofs.Scalar.Reading
import Mathlib.Algebra.BigOperators.Ring.List
import Mathlib.Algebra.Order.BigOperators.Group.List
import Mathlib.Algebra.Order.Floor.Ring
import Mathlib.Data.Finset.Max
import Mathlib.Tactic.Linarith
import Mathlib.Tactic.Ring
/-! Interpolation in exact arithmetic: reading a table of rationals gives the multilinear blend of the
nodes around the point, after each coordinate has been held on its axis. -/

namespace BlockDiagram

/-- A coordinate held between the first and the last point of its axis. -/
def held (x : ℚ) (length : Nat) : ℚ := max 0 (min x (length - 1 : Nat))

/-- The points of an axis next to a coordinate, each with its weight. The last point has all the weight
of what is at or above it. -/
def neighbours (x : ℚ) (length : Nat) : List (Nat × ℚ) :=
  let c := held x length
  let low := ⌊c⌋.toNat
  if low + 1 < length then [(low, 1 - Int.fract c), (low + 1, Int.fract c)] else [(length - 1, 1)]

/-- The corners of the cell around a point, each with the product of its weights. -/
def corners : List ℚ → List Nat → List (List Nat × ℚ)
  | x :: point, length :: dims =>
    (neighbours x length).flatMap fun near =>
      (corners point dims).map fun corner => (near.1 :: corner.1, near.2 * corner.2)
  | _, _ => [([], 1)]

/-- The weighted sum of what `value` gives at the corners. -/
def blendOf (value : List Nat → ℚ) (weighted : List (List Nat × ℚ)) : ℚ :=
  (weighted.map fun corner => corner.2 * value corner.1).sum

section Neighbours

variable {x : ℚ} {length : Nat}

theorem cell_eq_floor (hword : length < wordSize) :
    Table.cell x length = min ⌊x⌋.toNat (length - 1) := by
  have hindex : (if Arithmetic.lt (Arithmetic.ofNat 0) x = true then
      Arithmetic.toIndex (Arithmetic.floor x) else 0) = min ⌊x⌋.toNat (wordSize - 1) := by
    change (if decide (((0 : Nat) : ℚ) < x) = true then min ⌊((⌊x⌋ : Int) : ℚ)⌋.toNat (wordSize - 1) else 0) = _
    rw [Int.floor_intCast]
    by_cases hx : 0 < x
    · simp [hx]
    · have hfloor : ⌊x⌋ ≤ 0 := by
        have := Int.floor_le_floor (not_lt.mp hx)
        simpa using this
      simp [hx, Int.toNat_of_nonpos hfloor]
  rw [Table.cell, hindex]
  omega

/-- Below the last point, a coordinate is held at or above the first point only. -/
theorem held_of_inside (hword : length < wordSize) (hinside : Table.cell x length + 1 < length) :
    held x length = max 0 x := by
  rw [cell_eq_floor hword] at hinside
  have hfloor : ⌊x⌋ < ((length - 1 : Nat) : Int) := by omega
  have hle : x ≤ (length - 1 : Nat) := by
    have := Int.floor_lt.mp hfloor
    push_cast at this ⊢
    exact this.le
  rw [held, min_eq_left hle]

theorem neighbours_inside (hword : length < wordSize) (hinside : Table.cell x length + 1 < length) :
    neighbours x length =
      [(Table.cell x length, 1 - Table.fraction x), (Table.cell x length + 1, Table.fraction x)] := by
  have hheld := held_of_inside hword hinside
  rw [cell_eq_floor hword] at hinside
  have hcell : Table.cell x length = ⌊x⌋.toNat := by rw [cell_eq_floor hword]; omega
  have hfraction : Table.fraction x = Int.fract (max 0 x) := by
    change (if decide (((0 : Nat) : ℚ) < x) = true then x - ((⌊x⌋ : Int) : ℚ) else ((0 : Nat) : ℚ)) = _
    by_cases hx : 0 < x
    · simp [hx, max_eq_right hx.le]
    · simp [hx, max_eq_left (not_lt.mp hx)]
  have hlow : ⌊max 0 x⌋.toNat = ⌊x⌋.toNat := by
    rcases le_total 0 x with hx | hx
    · rw [max_eq_right hx]
    · have hfloor := Int.floor_le_floor hx
      rw [Int.floor_zero] at hfloor
      rw [max_eq_left hx, Int.floor_zero, Int.toNat_of_nonpos hfloor, Int.toNat_zero]
  rw [neighbours, hheld, hlow, hcell, hfraction, if_pos (by omega)]

theorem neighbours_top (hlength : 0 < length) (hword : length < wordSize)
    (htop : length - 1 ≤ Table.cell x length) : neighbours x length = [(length - 1, 1)] := by
  have hfloor : length - 1 ≤ ⌊x⌋.toNat := by
    rw [cell_eq_floor hword] at htop
    omega
  have hle : ((length - 1 : Nat) : ℚ) ≤ x ∨ length - 1 = 0 := by
    by_cases hzero : length - 1 = 0
    · exact .inr hzero
    · left
      have : ((length - 1 : Nat) : Int) ≤ ⌊x⌋ := by omega
      exact_mod_cast Int.le_floor.mp this
  have hheld : held x length = (length - 1 : Nat) := by
    rcases hle with hle | hzero
    · rw [held, min_eq_right hle, max_eq_right (Nat.cast_nonneg _)]
    · rw [held, hzero, Nat.cast_zero, max_eq_left (min_le_right _ _)]
  rw [neighbours, hheld, Int.floor_natCast, Int.toNat_natCast, if_neg (by omega)]

theorem neighbours_length : (neighbours x length).length ≤ 2 := by
  rw [neighbours]
  split
  · exact Nat.le_refl 2
  · exact Nat.le_succ 1

theorem neighbours_lt (hlength : 0 < length) : ∀ near ∈ neighbours x length, near.1 < length := by
  intro near hnear
  rw [neighbours] at hnear
  split at hnear
  · rename_i hinside
    rw [List.mem_pair] at hnear
    rcases hnear with rfl | rfl
    · exact Nat.lt_of_succ_lt hinside
    · exact hinside
  · rw [List.mem_singleton] at hnear
    subst hnear
    exact Nat.sub_lt hlength Nat.one_pos

theorem neighbours_nonneg : ∀ near ∈ neighbours x length, 0 ≤ near.2 := by
  intro near hnear
  rw [neighbours] at hnear
  split at hnear
  · rw [List.mem_pair] at hnear
    rcases hnear with rfl | rfl
    · exact sub_nonneg.mpr (Int.fract_lt_one _).le
    · exact Int.fract_nonneg _
  · rw [List.mem_singleton] at hnear
    subst hnear
    exact zero_le_one

theorem neighbours_sum : ((neighbours x length).map Prod.snd).sum = 1 := by
  rw [neighbours]
  split
  · simp
  · simp

end Neighbours

section Corners

theorem blendOf_cons (value : List Nat → ℚ) (x : ℚ) (point : List ℚ) (length : Nat) (dims : List Nat) :
    blendOf value (corners (x :: point) (length :: dims)) =
      ((neighbours x length).map fun near =>
        near.2 * blendOf (fun node => value (near.1 :: node)) (corners point dims)).sum := by
  rw [corners]
  induction neighbours x length with
  | nil => rfl
  | cons near rest ih =>
      have hfirst : blendOf value
          ((corners point dims).map fun corner => (near.1 :: corner.1, near.2 * corner.2)) =
            near.2 * blendOf (fun node => value (near.1 :: node)) (corners point dims) := by
        simp only [blendOf, List.map_map, ← List.sum_map_mul_left]
        refine congrArg List.sum (List.map_congr_left fun corner _ => ?_)
        exact mul_assoc _ _ _
      have happend : ∀ a b, blendOf value (a ++ b) = blendOf value a + blendOf value b := fun a b => by
        rw [blendOf, List.map_append, List.sum_append, blendOf, blendOf]
      rw [List.flatMap_cons, happend, hfirst, ih, List.map_cons, List.sum_cons]

theorem corners_length (point : List ℚ) (dims : List Nat) :
    (corners point dims).length ≤ 2 ^ dims.length := by
  fun_induction corners point dims with
  | case1 x point length dims ih =>
      simp only [List.length_flatMap, List.length_map, List.map_const', List.sum_replicate_nat,
        List.length_cons, Nat.pow_succ']
      exact Nat.mul_le_mul neighbours_length ih
  | case2 => exact Nat.one_le_two_pow

theorem corners_onGrid {point : List ℚ} {dims : List Nat} (hlength : point.length = dims.length)
    (hpos : ∀ d ∈ dims, 0 < d) : ∀ corner ∈ corners point dims, OnGrid corner.1 dims := by
  fun_induction corners point dims with
  | case1 x point length dims ih =>
      intro corner hcorner
      obtain ⟨near, hnear, hcorner⟩ := List.mem_flatMap.mp hcorner
      obtain ⟨rest, hrest, rfl⟩ := List.mem_map.mp hcorner
      refine .cons (neighbours_lt (hpos length List.mem_cons_self) near hnear) ?_
      exact ih (Nat.succ.inj hlength) (fun d hd => hpos d (List.mem_cons_of_mem length hd)) rest hrest
  | case2 point dims hshape =>
      intro corner hcorner
      rw [List.mem_singleton.mp hcorner]
      cases dims with
      | nil => exact .nil
      | cons length dims =>
          cases point with
          | nil => cases hlength
          | cons x point => exact absurd rfl (hshape x point length dims rfl)

theorem corners_nonneg (point : List ℚ) (dims : List Nat) : ∀ corner ∈ corners point dims, 0 ≤ corner.2 := by
  fun_induction corners point dims with
  | case1 x point length dims ih =>
      intro corner hcorner
      obtain ⟨near, hnear, hcorner⟩ := List.mem_flatMap.mp hcorner
      obtain ⟨rest, hrest, rfl⟩ := List.mem_map.mp hcorner
      exact mul_nonneg (neighbours_nonneg near hnear) (ih rest hrest)
  | case2 =>
      intro corner hcorner
      rw [List.mem_singleton.mp hcorner]
      exact zero_le_one

/-- The weights of the corners add up to one: where every corner has one value, so has the blend. -/
theorem blendOf_const (c : ℚ) (point : List ℚ) (dims : List Nat) :
    blendOf (fun _ => c) (corners point dims) = c := by
  fun_induction corners point dims with
  | case1 x point length dims ih =>
      rw [← corners, blendOf_cons]
      simp only [ih]
      rw [List.sum_map_mul_right, neighbours_sum, one_mul]
  | case2 => simp [blendOf]

theorem blendOf_mono {f g : List Nat → ℚ} {point : List ℚ} {dims : List Nat}
    (h : ∀ corner ∈ corners point dims, f corner.1 ≤ g corner.1) :
    blendOf f (corners point dims) ≤ blendOf g (corners point dims) :=
  List.sum_le_sum fun corner hcorner =>
    mul_le_mul_of_nonneg_left (h corner hcorner) (corners_nonneg point dims corner hcorner)

/-- The blend lies between the values at two of the corners, so between the least and the greatest. -/
theorem blendOf_between (value : List Nat → ℚ) (point : List ℚ) (dims : List Nat) :
    (∃ corner ∈ corners point dims, value corner.1 ≤ blendOf value (corners point dims)) ∧
      ∃ corner ∈ corners point dims, blendOf value (corners point dims) ≤ value corner.1 := by
  have hne : (corners point dims).toFinset.Nonempty := by
    rw [List.toFinset_nonempty_iff]
    intro hnil
    have hone := blendOf_const 1 point dims
    rw [hnil] at hone
    exact zero_ne_one hone
  constructor
  · obtain ⟨low, hlow, hleast⟩ := Finset.exists_min_image _ (fun corner => value corner.1) hne
    refine ⟨low, List.mem_toFinset.mp hlow, ?_⟩
    calc value low.1 = blendOf (fun _ => value low.1) (corners point dims) := (blendOf_const _ _ _).symm
      _ ≤ blendOf value (corners point dims) :=
        blendOf_mono fun corner hcorner => hleast corner (List.mem_toFinset.mpr hcorner)
  · obtain ⟨high, hhigh, hgreatest⟩ := Finset.exists_max_image _ (fun corner => value corner.1) hne
    refine ⟨high, List.mem_toFinset.mp hhigh, ?_⟩
    calc blendOf value (corners point dims) ≤ blendOf (fun _ => value high.1) (corners point dims) :=
        blendOf_mono fun corner hcorner => hgreatest corner (List.mem_toFinset.mpr hcorner)
      _ = value high.1 := blendOf_const _ _ _

/-- At a node of the grid all the weight is on that node. -/
theorem blendOf_node {node dims : List Nat} (h : OnGrid node dims) (hword : ∀ d ∈ dims, d < wordSize)
    (value : List Nat → ℚ) : blendOf value (corners (node.map Nat.cast) dims) = value node := by
  induction h generalizing value with
  | nil => simp [corners, blendOf]
  | @cons i d node dims hid hrest ih =>
      have hd := hword d List.mem_cons_self
      have htail := ih fun e he => hword e (List.mem_cons_of_mem d he)
      have hcell : Table.cell (i : ℚ) d = i := by
        rw [cell_eq_floor hd, Int.floor_natCast, Int.toNat_natCast]
        omega
      rw [List.map_cons, blendOf_cons]
      by_cases hinside : i + 1 < d
      · have hfraction : Table.fraction (i : ℚ) = 0 := by
          change (if decide (((0 : Nat) : ℚ) < i) = true then (i : ℚ) - ((⌊(i : ℚ)⌋ : Int) : ℚ)
            else ((0 : Nat) : ℚ)) = 0
          simp
        rw [neighbours_inside hd (by rw [hcell]; exact hinside), hcell, hfraction]
        simp [htail]
      · have hlast : d - 1 = i := by omega
        rw [neighbours_top (Nat.zero_lt_of_lt hid) hd (by rw [hcell]; omega), hlast]
        simp [htail]

end Corners

theorem lerp_eq_weighted (a b w : ℚ) : Table.lerp a b w = (1 - w) * a + w * b := by
  change a + (b - a) * w = _
  ring

/-- The recursion on the axes is the weighted sum over the corners. -/
theorem nested_eq_blendOf {dims : List Nat} (hword : ∀ d ∈ dims, 0 < d ∧ d < wordSize)
    {point : List ℚ} (hpoint : point.length = dims.length) (value : List Nat → ℚ) :
    Id.run (nested value dims point) = blendOf value (corners point dims) := by
  induction dims generalizing point value with
  | nil =>
      obtain rfl := List.length_eq_zero_iff.mp hpoint
      simp [nested, corners, blendOf, Id.run]
  | cons d dims ih =>
      obtain ⟨x, point, rfl⟩ := List.exists_cons_of_length_eq_add_one hpoint
      obtain ⟨hpos, hd⟩ := hword d List.mem_cons_self
      have hnext : ∀ i, Id.run (nested (fun node => value (i :: node)) dims point) =
          blendOf (fun node => value (i :: node)) (corners point dims) := fun i =>
        ih (fun e he => hword e (List.mem_cons_of_mem d he)) (Nat.succ.inj hpoint) _
      rw [nested, blendOf_cons]
      split
      · obtain rfl : d = 1 := by omega
        rw [neighbours_top hpos hd (Nat.zero_le _)]
        simp [hnext]
      · rename_i hlong
        by_cases htop : d - 1 ≤ Table.cell x d
        · rw [neighbours_top hpos hd htop, interval_top hlong htop]
          simp [hnext, lerp_eq_weighted, show d - 2 + 1 = d - 1 by omega, Arithmetic.ofNat]
        · rw [neighbours_inside hd (by omega), interval_inside htop]
          simp [hnext, lerp_eq_weighted]

namespace Table

/-- The table with `f` applied to every value. -/
def map {α β : Type} (f : α → β) (t : Table α) : Table β :=
  { id := t.id, axes := t.axes, values := t.values.map f, users := t.users }

theorem interpolate_eq {t : Table ℚ} {value : List Nat → ℚ}
    (hvalue : ∀ node, OnGrid node t.dims → t.values[t.offset node]? = some (value node))
    (hword : ∀ d ∈ t.dims, 0 < d ∧ d < wordSize) {point : List ℚ} (hpoint : point.length = t.rank) :
    t.interpolate point = .ok (blendOf value (corners point t.dims)) := by
  have hrank : t.dims.length = t.rank := List.length_map _
  have hdims := hpoint.trans hrank.symm
  rw [t.interpolate_nested hpoint, ← nested_eq_blendOf hword hdims, ← nested_ok]
  exact nested_congr (fun d hd => (hword d hd).1) hdims fun node hnode =>
    entry_eq_ok.mpr (hvalue node hnode)

end Table

/-- A table in a draft, its values read as rationals in any way, has one value for each node, in row-major
order; reading it at any rational point gives the blend of these values over the corners of the point's
cell, which are at most two for each axis. The blend is the stored value at a node and stays between the
values at the corners. -/
theorem Draft.Reachable.interpolation_multilinear {α : Type} [Scalar α] {d : Draft α} (hd : d.Reachable)
    {t : Table α} (ht : t ∈ d.tables) (read : α → ℚ) :
    ∃ value : List Nat → ℚ,
      (∀ node, OnGrid node t.dims → t.values[rowMajor t.dims node]?.map read = some (value node)) ∧
      ∀ point : List ℚ, point.length = t.rank →
        (t.map read).interpolate point = .ok (blendOf value (corners point t.dims)) ∧
        (corners point t.dims).length ≤ 2 ^ t.rank ∧
        (∀ corner ∈ corners point t.dims, OnGrid corner.1 t.dims) ∧
        (∀ node, OnGrid node t.dims → point = node.map Nat.cast →
          (t.map read).interpolate point = .ok (value node)) ∧
        (∃ corner ∈ corners point t.dims, value corner.1 ≤ blendOf value (corners point t.dims)) ∧
        ∃ corner ∈ corners point t.dims, blendOf value (corners point t.dims) ≤ value corner.1 := by
  obtain ⟨i, hi⟩ := Array.mem_iff_getElem?.mp ht
  have hgrids := hd.sound.grids
  have hpos := hgrids.dims_pos hi
  obtain ⟨-, hvalues, hsize⟩ := hgrids.shape i t hi
  have hword : ∀ e ∈ t.dims, 0 < e ∧ e < wordSize := fun e he =>
    ⟨hpos e he, Nat.lt_of_le_of_lt (le_gridSize hpos he) hsize⟩
  have hrank : t.dims.length = t.rank := List.length_map _
  have hheld : ∀ node, OnGrid node t.dims →
      ∃ v, t.values[t.offset node]? = some v := fun node hnode =>
    ⟨_, Array.getElem?_eq_getElem (Table.offset_lt hnode hvalues)⟩
  let value := fun node => (t.values[t.offset node]?.map read).getD 0
  have hvalue : ∀ node, OnGrid node t.dims →
      t.values[t.offset node]?.map read = some (value node) := by
    intro node hnode
    obtain ⟨v, hv⟩ := hheld node hnode
    simp only [value, hv, Option.map_some, Option.getD_some]
  have hmapped : ∀ node, OnGrid node (t.map read).dims →
      (t.map read).values[(t.map read).offset node]? = some (value node) := by
    intro node hnode
    rw [← hvalue node hnode]
    exact Array.getElem?_map
  refine ⟨value, fun node hnode => ?_, fun point hpoint => ?_⟩
  · rw [← Table.offset_eq_rowMajor hnode.length_eq]
    exact hvalue node hnode
  · have hblend := Table.interpolate_eq hmapped hword hpoint
    have hbetween := blendOf_between value point t.dims
    refine ⟨hblend, hrank ▸ corners_length point t.dims, ?_, ?_, hbetween.1, hbetween.2⟩
    · exact corners_onGrid (hpoint.trans hrank.symm) hpos
    · rintro node hnode rfl
      rw [hblend]
      exact congrArg _ (blendOf_node hnode (fun e he => (hword e he).2) value)

/-- The exact value of a double that is a natural number. -/
def exactNatural (v : Float) : ℚ := v.toUInt64.toNat

/-- A table with an axis of three points and an axis of one. -/
def ramp : Draft Float :=
  .after "ramp"
    [.breakpoints "A" [0, 1, 2], .breakpoints "B" [5], .table (some "T") ["A", "B"] #[10, 20, 40]]

/-- Halfway between the last two points, and beyond the only point of the other axis. -/
theorem ramp_halfway : ∃ t ∈ ramp.tables,
    (t.map exactNatural).interpolate [3 / 2, 7] = .ok 30 := by
  have hshape : ramp.tables[0]?.map (fun t => (t.rank, t.dims)) = some (2, [3, 1]) := by decide +kernel
  have hstored : ramp.tables[0]?.map (fun t => t.values.toList.map fun v => v.toUInt64.toNat) =
      some [10, 20, 40] := by decide +kernel
  obtain ⟨t, ht, hshape⟩ := Option.map_eq_some_iff.mp hshape
  obtain ⟨hrank, hdims⟩ := Prod.mk.inj hshape
  rw [ht, Option.map_some, Option.some_inj] at hstored
  have hmem : t ∈ ramp.tables := Array.mem_of_getElem? ht
  obtain ⟨value, hvalue, hread⟩ := Draft.Reachable.interpolation_multilinear
    (Draft.reachable_after _ _) hmem exactNatural
  have hcorners : corners [3 / 2, 7] t.dims = [([1, 0], 1 / 2), ([2, 0], 1 / 2)] := by
    rw [hdims]
    norm_num [corners, neighbours, held]
  have hentry : ∀ node (n : Nat), OnGrid node [3, 1] → [10, 20, 40][rowMajor [3, 1] node]? = some n →
      value node = n := by
    intro node n hnode hn
    have hheld := hvalue node (hdims ▸ hnode)
    rw [← hstored, List.getElem?_map, Array.getElem?_toList, ← hdims] at hn
    obtain ⟨v, hv, rfl⟩ := Option.map_eq_some_iff.mp hn
    rw [hv] at hheld
    exact (Option.some_inj.mp hheld).symm
  have hmiddle : value [1, 0] = (20 : Nat) :=
    hentry [1, 0] 20 (.cons (by decide) (.cons (by decide) .nil)) rfl
  have hlast : value [2, 0] = (40 : Nat) :=
    hentry [2, 0] 40 (.cons (by decide) (.cons (by decide) .nil)) rfl
  refine ⟨t, hmem, ?_⟩
  rw [(hread [3 / 2, 7] hrank.symm).1, hcorners, blendOf]
  norm_num [hmiddle, hlast]

end BlockDiagram
