import BlockDiagram.Block
import BlockDiagram.Proofs.Call
import BlockDiagram.Proofs.Grid.Addressing
/-! Interpolation: locating a scalar on a set of breakpoints always succeeds, and so does reading a
table that has a value for each node. -/

namespace BlockDiagram

variable {α : Type}

namespace Table

theorem along_eq_ok {β : Type} {xs : List β} {axis : Nat} {x : β} :
    (along xs axis : Except (ModelError α) β) = .ok x ↔ xs[axis]? = some x := by
  unfold along
  cases xs[axis]? with
  | some y => simp
  | none => simp

theorem along_ok {β : Type} {xs : List β} {axis : Nat} (h : axis < xs.length) :
    (along xs axis : Except (ModelError α) β) = .ok xs[axis] :=
  along_eq_ok.mpr (List.getElem?_eq_getElem h)

theorem onGrid_set {corner dims : List Nat} (h : OnGrid corner dims) {axis i : Nat}
    (hi : ∀ d, dims[axis]? = some d → i < d) : OnGrid (corner.set axis i) dims := by
  induction h generalizing axis with
  | nil => exact .nil
  | cons hcd hrest ih =>
      cases axis with
      | zero => exact .cons (hi _ rfl) hrest
      | succ axis => exact .cons hcd (ih fun d hd => hi d hd)

variable [Arithmetic α]

/-- The blend of what is found at both ends of an interval of one axis. -/
def between (t : Table α) (coordinates : List α) (depth axis low index : Nat) (weight : α)
    (corner : List Nat) : Except (ModelError α) (α × List Nat) := do
  let (a, corner) ← t.blend coordinates depth (corner.set axis low)
  let next ← along corner axis
  let (b, corner) ← t.blend coordinates depth (corner.set axis (next + 1))
  return (lerp a b weight, corner.set axis index)

theorem blend_succ (t : Table α) (coordinates : List α) (depth : Nat) (corner : List Nat) :
    t.blend coordinates (depth + 1) corner = (do
      let length ← along t.dims (t.rank - (depth + 1))
      if length < 2 then t.blend coordinates depth corner
      else do
        let index ← along corner (t.rank - (depth + 1))
        if length - 1 ≤ index then
          t.between coordinates depth (t.rank - (depth + 1)) (length - 2) index (Arithmetic.ofNat 1)
            corner
        else do
          let x ← along coordinates (t.rank - (depth + 1))
          t.between coordinates depth (t.rank - (depth + 1)) index index (fraction x) corner) := by
  rw [blend]
  refine congrArg _ (funext fun length => ?_)
  by_cases hlength : length < 2
  · rw [if_pos hlength, if_pos hlength]
  · rw [if_neg hlength, if_neg hlength]
    refine congrArg _ (funext fun index => ?_)
    by_cases htop : length - 1 ≤ index
    · simp only [htop, ↓reduceIte]
      rfl
    · simp only [htop, ↓reduceIte]
      cases along coordinates (t.rank - (depth + 1)) with
      | error e => rfl
      | ok x => rfl

/-- Blending from a corner on the grid finds all the values it needs, and puts the corner back. -/
theorem blend_total {t : Table α} (hvalues : t.values.size = gridSize t.dims) {coordinates : List α}
    (hcoordinates : coordinates.length = t.rank) {depth : Nat} (hdepth : depth ≤ t.rank)
    {corner : List Nat} (hcorner : OnGrid corner t.dims) :
    ∃ v, t.blend coordinates depth corner = .ok (v, corner) := by
  have hrank : t.dims.length = t.rank := List.length_map _
  induction depth generalizing corner with
  | zero =>
      have hlt := offset_lt hcorner hvalues
      refine ⟨t.values[t.offset corner], ?_⟩
      rw [blend, entry_eq_ok.mpr (Array.getElem?_eq_getElem hlt)]
      rfl
  | succ depth ih =>
      have hle : depth ≤ t.rank := Nat.le_of_succ_le hdepth
      have haxis : t.rank - (depth + 1) < t.rank := by omega
      rw [blend_succ]
      generalize t.rank - (depth + 1) = axis at haxis ⊢
      have hd : axis < t.dims.length := by rw [hrank]; exact haxis
      have hc : axis < corner.length := by rw [hcorner.length_eq]; exact hd
      have hindex : corner[axis] < t.dims[axis] := (List.forall₂_iff_get.mp hcorner).2 axis hc hd
      have hmove : ∀ i, i < t.dims[axis] → OnGrid (corner.set axis i) t.dims := by
        intro i hi
        refine onGrid_set hcorner fun d hget => ?_
        rw [List.getElem?_eq_getElem hd] at hget
        cases hget
        exact hi
      -- Both ends of the interval are on the grid, and the last step undoes the moves along it.
      have hbetween : ∀ low w, low + 1 < t.dims[axis] →
          ∃ v, t.between coordinates depth axis low corner[axis] w corner = .ok (v, corner) := by
        intro low w hlow
        obtain ⟨a, ha⟩ := ih hle (hmove low (Nat.lt_of_succ_lt hlow))
        obtain ⟨b, hb⟩ := ih hle (hmove (low + 1) hlow)
        rw [between, ha, outcome_ok_bind]
        dsimp only
        rw [along_ok (by rw [List.length_set]; exact hc), outcome_ok_bind, List.getElem_set_self,
          List.set_set, hb, outcome_ok_bind]
        dsimp only
        rw [List.set_set, List.set_getElem_self]
        exact ⟨_, rfl⟩
      rw [along_ok hd, outcome_ok_bind]
      split
      · exact ih hle hcorner
      · rw [along_ok hc, outcome_ok_bind]
        split
        · exact hbetween _ _ (by omega)
        · rw [along_ok (by rw [hcoordinates]; exact haxis), outcome_ok_bind]
          exact hbetween _ _ (by omega)

theorem cells_on_grid {coordinates : List α} {dims : List Nat} (hlength : coordinates.length = dims.length)
    (hpos : ∀ d ∈ dims, 0 < d) : OnGrid (List.zipWith cell coordinates dims) dims := by
  induction dims generalizing coordinates with
  | nil => rw [List.zipWith_nil_right]; exact .nil
  | cons d dims ih =>
      cases coordinates with
      | nil => cases hlength
      | cons x coordinates =>
          have hd := hpos d List.mem_cons_self
          refine .cons ?_ (ih (Nat.succ.inj hlength) fun y hy => hpos y (List.mem_cons_of_mem d hy))
          exact Nat.lt_of_le_of_lt (Nat.min_le_right _ _) (Nat.sub_lt hd Nat.one_pos)

theorem interpolate_total {t : Table α} (hvalues : t.values.size = gridSize t.dims)
    (hpos : ∀ d ∈ t.dims, 0 < d) {coordinates : List α}
    (hcoordinates : coordinates.length = t.rank) : ∃ v, t.interpolate coordinates = .ok v := by
  have hlength : coordinates.length = t.dims.length := by
    rw [hcoordinates, dims, List.length_map, rank]
  have hcells := cells_on_grid hlength hpos
  obtain ⟨v, hv⟩ := blend_total hvalues hcoordinates (Nat.le_refl _) hcells
  rw [interpolate, if_pos hcoordinates, hv]
  exact ⟨v, rfl⟩

/-- A blend that succeeds puts the corner back, wherever it is. -/
theorem blend_restores {t : Table α} {coordinates : List α} {depth : Nat} {corner corner' : List Nat} {v : α}
    (hdepth : depth ≤ t.rank) (hlength : corner.length = t.rank)
    (h : t.blend coordinates depth corner = .ok (v, corner')) : corner' = corner := by
  induction depth generalizing corner corner' v with
  | zero =>
      obtain ⟨x, -, h⟩ := outcome_bind_ok.mp h
      cases h
      rfl
  | succ depth ih =>
      have hle : depth ≤ t.rank := Nat.le_of_succ_le hdepth
      rw [blend_succ] at h
      have haxis : t.rank - (depth + 1) < corner.length := by omega
      generalize t.rank - (depth + 1) = axis at haxis h
      have hset : ∀ x, (corner.set axis x).length = t.rank := fun x => by
        rw [List.length_set, hlength]
      have hbetween : ∀ low w, t.between coordinates depth axis low corner[axis] w corner =
          .ok (v, corner') → corner' = corner := by
        intro low w h
        obtain ⟨⟨a, ca⟩, ha, h⟩ := outcome_bind_ok.mp h
        obtain rfl := ih hle (hset low) ha
        obtain ⟨next, -, h⟩ := outcome_bind_ok.mp h
        obtain ⟨⟨b, cb⟩, hb, h⟩ := outcome_bind_ok.mp h
        rw [List.set_set] at hb
        obtain rfl := ih hle (hset (next + 1)) hb
        cases h
        rw [List.set_set, List.set_getElem_self]
      obtain ⟨d, -, h⟩ := outcome_bind_ok.mp h
      split at h
      · exact ih hle hlength h
      · rw [along_ok haxis, outcome_ok_bind] at h
        split at h
        · exact hbetween _ _ h
        · obtain ⟨x, -, h⟩ := outcome_bind_ok.mp h
          exact hbetween _ _ h

omit [Arithmetic α] in
theorem rank_of_dims {t t' : Table α} (hdims : t'.dims = t.dims) : t'.rank = t.rank := by
  have hlength := congrArg List.length hdims
  rwa [dims, dims, List.length_map, List.length_map] at hlength

/-- Blending looks at the lengths of the axes and at the values only. -/
theorem blend_congr {t t' : Table α} (hdims : t'.dims = t.dims) (hvalues : t'.values = t.values)
    (coordinates : List α) (depth : Nat) (corner : List Nat) :
    t'.blend coordinates depth corner = t.blend coordinates depth corner := by
  induction depth generalizing corner with
  | zero => rw [blend, blend, offset, offset, hdims, hvalues]
  | succ depth ih => simp only [blend_succ, between, ih, hdims, rank_of_dims hdims]

theorem interpolate_congr {t t' : Table α} (hdims : t'.dims = t.dims) (hvalues : t'.values = t.values)
    {coordinates : List α} {x : α} (h : t.interpolate coordinates = .ok x) :
    t'.interpolate coordinates = .ok x := by
  have hrank := rank_of_dims hdims
  unfold interpolate at h ⊢
  split at h
  · rename_i hlength
    rw [if_pos (hrank ▸ hlength), hrank, hdims, blend_congr hdims hvalues]
    exact h
  · cases h

end Table

theorem BreakpointSet.normalize_total [Arithmetic α] {s : BreakpointSet α} (h : s.values ≠ []) (x : α) :
    ∃ y, s.normalize x = .ok y := by
  rw [normalize]
  split
  · rename_i hnil
    exact absurd hnil h
  · exact ⟨_, rfl⟩

end BlockDiagram
