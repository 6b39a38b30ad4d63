import BlockDiagram.Proofs.Grid.Interpolation
import BlockDiagram.Proofs.Grid.Sound
/-! Guarded readings: interpolation that checks every size it takes from, every position it computes and
every value it reads. Along the last axis the two ends of an interval are read side by side. On a table of
sound shape no guard stops a reading, whatever the coordinates. -/

namespace BlockDiagram

variable {α : Type}

/-- What is left of a size, which must not fall below zero. -/
def remaining (size taken : Nat) : Except (ModelError α) Nat :=
  if taken ≤ size then .ok (size - taken) else .error (.outOfBounds taken size)

theorem remaining_ok {size taken : Nat} (h : taken ≤ size) :
    (remaining size taken : Except (ModelError α) Nat) = .ok (size - taken) :=
  if_pos h

namespace Table

variable [Arithmetic α]

/-- The cell of a coordinate on an axis that has points. -/
def guardedCell (coordinate : α) (length : Nat) : Except (ModelError α) Nat := do
  let last ← remaining length 1
  let whole :=
    if Arithmetic.lt (Arithmetic.ofNat 0) coordinate then
      Arithmetic.toIndex (Arithmetic.floor coordinate)
    else 0
  return min whole last

/-- What is found at both ends of the interval that starts at a corner. -/
def guardedEnds (t : Table α) (depth axis : Nat)
    (rest : List Nat → Except (ModelError α) (α × List Nat)) (corner : List Nat) :
    Except (ModelError α) (α × α × List Nat) :=
  if depth = 0 then do
    let place ← inWord (t.offset corner)
    let a ← entry t.values place
    let b ← entry t.values (place + 1)
    return (a, b, corner)
  else do
    let (a, corner) ← rest corner
    let low ← along corner axis
    let (b, corner) ← rest (corner.set axis (low + 1))
    return (a, b, corner)

/-- Blends along the last `depth` axes, of which there must be one. -/
def guardedBlend (t : Table α) (coordinates : List α) :
    (depth : Nat) → (corner : List Nat) → Except (ModelError α) (α × List Nat)
  | 0, _ => .error (.outOfBounds t.rank t.rank)
  | depth + 1, corner => do
    let axis ← remaining t.rank (depth + 1)
    let length ← along t.dims axis
    if length < 2 then
      if depth = 0 then do
        let place ← inWord (t.offset corner)
        let value ← entry t.values place
        return (value, corner)
      else t.guardedBlend coordinates depth corner
    else do
      let index ← along corner axis
      let last ← remaining length 1
      if last ≤ index then do
        let low ← remaining length 2
        let (a, b, corner) ← t.guardedEnds depth axis (t.guardedBlend coordinates depth)
          (corner.set axis low)
        return (lerp a b (Arithmetic.ofNat 1), corner.set axis index)
      else do
        let x ← along coordinates axis
        let (a, b, corner) ← t.guardedEnds depth axis (t.guardedBlend coordinates depth) corner
        return (lerp a b (fraction x), corner.set axis index)

/-- The value at one coordinate per axis, with every step under guard. -/
def guardedInterpolate (t : Table α) (coordinates : List α) : Except (ModelError α) α :=
  if coordinates.length = t.rank then do
    let cells ← (coordinates.zip t.dims).mapM fun (x, length) => guardedCell x length
    let (value, _) ← t.guardedBlend coordinates t.rank cells
    return value
  else .error (.violation (.coordinates t.id t.rank coordinates.length))

theorem guardedCells_eq {coordinates : List α} {dims : List Nat} (hpos : ∀ d ∈ dims, 0 < d) :
    ((coordinates.zip dims).mapM fun (x, length) => guardedCell x length) =
      .ok (List.zipWith cell coordinates dims) := by
  rw [outcome_mapM_ok]
  induction dims generalizing coordinates with
  | nil => rw [List.zip_nil_right, List.zipWith_nil_right]; exact .nil
  | cons d dims ih =>
      cases coordinates with
      | nil => exact .nil
      | cons x coordinates =>
          refine .cons ?_ (ih fun e he => hpos e (List.mem_cons_of_mem d he))
          dsimp only
          rw [guardedCell, remaining_ok (hpos d List.mem_cons_self)]
          rfl

section Sound

variable {t : Table α} {coordinates : List α} (hvalues : t.values.size = gridSize t.dims)
  (hsize : gridSize t.dims < wordSize) (hcoordinates : coordinates.length = t.rank)

include hvalues hsize

omit [Arithmetic α] in
theorem offset_inWord {node : List Nat} (h : OnGrid node t.dims) :
    (inWord (t.offset node) : Except (ModelError α) Nat) = .ok (t.offset node) :=
  inWord_eq_ok.mpr ⟨Nat.lt_trans (hvalues ▸ offset_lt h hvalues) hsize, rfl⟩

include hcoordinates

/-- Both ends of an interval on the grid are found, and are what the blends from them give. -/
theorem guardedEnds_between {depth axis low : Nat} (index : Nat) (weight : α) {corner : List Nat}
    {rest : List Nat → Except (ModelError α) (α × List Nat)} (hdepth : axis + (depth + 1) = t.rank)
    (hrest : depth ≠ 0 → ∀ node, OnGrid node t.dims →
      rest node = t.blend coordinates depth node)
    (hlow : OnGrid (corner.set axis low) t.dims) (hhigh : OnGrid (corner.set axis (low + 1)) t.dims) :
    (do
      let (a, b, corner) ← t.guardedEnds depth axis rest (corner.set axis low)
      return (lerp a b weight, corner.set axis index)) =
      t.between coordinates depth axis low index weight corner := by
  have hrank : t.dims.length = t.rank := List.length_map _
  have hin : axis < corner.length := by
    have hlength := hlow.length_eq
    rw [List.length_set] at hlength
    omega
  have hnext : ((corner.set axis low).set axis (low + 1)) = corner.set axis (low + 1) :=
    List.set_set ..
  have hcell : (along (corner.set axis low) axis : Except (ModelError α) Nat) = .ok low :=
    along_eq_ok.mpr (List.getElem?_set_self hin)
  have hle : depth ≤ t.rank := by omega
  obtain ⟨a, ha⟩ := blend_total hvalues hcoordinates hle hlow
  obtain ⟨b, hb⟩ := blend_total hvalues hcoordinates hle hhigh
  rw [between, ha, outcome_ok_bind]
  dsimp only
  rw [hcell, outcome_ok_bind, hnext, hb, outcome_ok_bind]
  by_cases hzero : depth = 0
  · subst hzero
    obtain ⟨x, hx, hax⟩ := outcome_bind_ok.mp ha
    obtain ⟨y, hy, hby⟩ := outcome_bind_ok.mp hb
    cases hax
    cases hby
    have hside := offset_succ_last hlow.length_eq (by omega) (List.getElem?_set_self hin)
    rw [hnext] at hside
    rw [hside] at hy
    simp only [guardedEnds, ↓reduceIte, offset_inWord hvalues hsize hlow, hx, hy, outcome_ok_bind]
    change Except.ok (lerp a b weight, (corner.set axis low).set axis index) = Except.ok _
    rw [List.set_set, List.set_set]
  · simp only [guardedEnds, if_neg hzero, hrest hzero _ hlow, ha, outcome_ok_bind, hcell, hnext,
      hrest hzero _ hhigh, hb]
    rfl

/-- One more axis, where blending along the axes after it is known. -/
theorem guardedBlend_step {depth : Nat} (hdepth : depth + 1 ≤ t.rank) {corner : List Nat}
    (hcorner : OnGrid corner t.dims)
    (hrest : depth ≠ 0 → ∀ node, OnGrid node t.dims →
      t.guardedBlend coordinates depth node = t.blend coordinates depth node) :
    t.guardedBlend coordinates (depth + 1) corner = t.blend coordinates (depth + 1) corner := by
  have hrank : t.dims.length = t.rank := List.length_map _
  have haxis : t.rank - (depth + 1) + (depth + 1) = t.rank := Nat.sub_add_cancel hdepth
  rw [guardedBlend, blend_succ, remaining_ok hdepth, outcome_ok_bind]
  generalize t.rank - (depth + 1) = axis at haxis ⊢
  have hd : axis < t.dims.length := by omega
  have hc : axis < corner.length := by rw [hcorner.length_eq]; exact hd
  have hindex : corner[axis] < t.dims[axis] := (List.forall₂_iff_get.mp hcorner).2 axis hc hd
  have hmove : ∀ i, i < t.dims[axis] → OnGrid (corner.set axis i) t.dims := by
    intro i hi
    refine onGrid_set hcorner fun d hget => ?_
    rw [List.getElem?_eq_getElem hd] at hget
    cases hget
    exact hi
  rw [along_ok hd, outcome_ok_bind, outcome_ok_bind]
  split
  · -- An axis with a single point is passed over.
    by_cases hzero : depth = 0
    · subst hzero
      rw [if_pos rfl, offset_inWord hvalues hsize hcorner]
      rfl
    · rw [if_neg hzero]
      exact hrest hzero corner hcorner
  · rw [along_ok hc, outcome_ok_bind, outcome_ok_bind, remaining_ok (by omega), outcome_ok_bind]
    split
    · rw [remaining_ok (by omega), outcome_ok_bind]
      exact guardedEnds_between hvalues hsize hcoordinates _ _ haxis hrest (hmove _ (by omega))
        (hmove _ (by omega))
    · rw [along_ok (by omega), outcome_ok_bind, outcome_ok_bind]
      have hends := guardedEnds_between hvalues hsize hcoordinates corner[axis]
        (fraction coordinates[axis]) haxis hrest (hmove _ hindex) (hmove _ (by omega))
      rw [List.set_getElem_self] at hends
      exact hends

theorem guardedBlend_eq {depth : Nat} (hdepth : depth + 1 ≤ t.rank) {corner : List Nat}
    (hcorner : OnGrid corner t.dims) :
    t.guardedBlend coordinates (depth + 1) corner = t.blend coordinates (depth + 1) corner := by
  induction depth generalizing corner with
  | zero =>
      exact guardedBlend_step hvalues hsize hcoordinates hdepth hcorner fun h => absurd rfl h
  | succ depth ih =>
      exact guardedBlend_step hvalues hsize hcoordinates hdepth hcorner fun _ node hnode =>
        ih (Nat.le_of_succ_le hdepth) hnode

end Sound

/-- No guard stops the reading of a table of sound shape, whatever the coordinates. -/
theorem guardedInterpolate_eq {t : Table α} (hvalues : t.values.size = gridSize t.dims)
    (hsize : gridSize t.dims < wordSize) (hpos : ∀ d ∈ t.dims, 0 < d) (hrank : 0 < t.rank)
    (coordinates : List α) : t.guardedInterpolate coordinates = t.interpolate coordinates := by
  rw [guardedInterpolate, interpolate]
  split
  · rename_i hcoordinates
    have hlength : coordinates.length = t.dims.length := by
      rw [hcoordinates, dims, List.length_map, rank]
    obtain ⟨depth, hdepth⟩ := Nat.exists_eq_add_of_le' hrank
    rw [guardedCells_eq hpos, outcome_ok_bind, hdepth]
    rw [guardedBlend_eq hvalues hsize hcoordinates (Nat.le_of_eq hdepth.symm)
      (cells_on_grid hlength hpos)]
  · rfl

end Table

end BlockDiagram
