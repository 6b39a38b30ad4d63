import BlockDiagram.Proofs.Draft.Reachable
import BlockDiagram.Proofs.Grid.Interpolation
import BlockDiagram.Scalar.Double
import Mathlib.Data.Set.Function
/-! Numbering: the flat positions of a table number the nodes of its grid in their order, without gaps.
Nodes that are neighbours on the last axis have neighbouring numbers, and these are what a blend along
that axis reads. -/

namespace BlockDiagram

namespace Table

variable {α : Type} {t : Table α}

/-- A table with these axes and values is accepted; by now lookups may read it. -/
def Accepted (t : Table α) : Prop := ∃ u, ofValues t.id t.axes t.values = .ok u

theorem Accepted.size_eq (h : t.Accepted) : t.values.size = gridSize t.dims := by
  obtain ⟨u, hu⟩ := h
  obtain ⟨-, -, -, -, -, hvalues, -⟩ := ofValues_ok hu
  exact hvalues

theorem accepted_of_shape (hne : t.axes ≠ []) (hpos : ∀ d ∈ t.dims, 0 < d)
    (hvalues : t.values.size = gridSize t.dims) (hsize : gridSize t.dims < wordSize) : t.Accepted := by
  have hsome : ¬ t.axes.isEmpty = true := by rwa [List.isEmpty_iff]
  have hcount : (nodeCount (t.axes.map Axis.length) : Except (ModelError α) Nat) = .ok (gridSize t.dims) :=
    nodeCount_of_lt hpos hsize
  refine ⟨{ t with users := [] }, ?_⟩
  rw [ofValues, if_neg hsome, hcount, outcome_ok_bind]
  exact if_pos hvalues

theorem offset_lt_iff {node node' : List Nat} (h : OnGrid node t.dims) (h' : OnGrid node' t.dims) :
    t.offset node < t.offset node' ↔ node < node' := by
  rw [offset_eq_rowMajor h.length_eq, offset_eq_rowMajor h'.length_eq, rowMajor_lt_iff h h']

theorem offset_injOn : Set.InjOn t.offset {node | OnGrid node t.dims} := by
  intro node h node' h' heq
  rcases lt_trichotomy node node' with hlt | hsame | hgt
  · exact absurd heq (Nat.ne_of_lt ((offset_lt_iff h h').mpr hlt))
  · exact hsame
  · exact absurd heq (Nat.ne_of_gt ((offset_lt_iff h' h).mpr hgt))

theorem offset_bijOn (hvalues : t.values.size = gridSize t.dims) :
    Set.BijOn t.offset {node | OnGrid node t.dims} (Set.Iio t.values.size) := by
  refine ⟨fun node h => offset_lt h hvalues, offset_injOn, fun place hplace => ?_⟩
  rw [Set.mem_Iio, hvalues] at hplace
  obtain ⟨node, hnode, rfl⟩ := exists_node hplace
  exact ⟨node, hnode, offset_eq_rowMajor hnode.length_eq⟩

/-- The lower end of the interval to blend over, on an axis with `length` points. -/
def lowEnd (index length : Nat) : Nat :=
  if length < 2 then index else if length - 1 ≤ index then length - 2 else index

/-- The interval to blend over ends on the axis: at the top edge it has been moved down. -/
theorem lowEnd_succ_lt {index length : Nat} (hindex : index < length) (hlong : 2 ≤ length) :
    lowEnd index length + 1 < length := by
  unfold lowEnd
  split
  · omega
  · split <;> omega

variable [Arithmetic α]

/-- Along the last axis there is nothing left to blend in between, so both ends of the interval are read
as they are stored. -/
theorem blend_last {coordinates : List α} {corner : List Nat} {axis length index : Nat} {x a b : α}
    (haxis : axis + 1 = t.rank) (hlength : t.dims[axis]? = some length)
    (hindex : corner[axis]? = some index) (hx : coordinates[axis]? = some x) (hlong : 2 ≤ length)
    (ha : t.values[t.offset (corner.set axis (lowEnd index length))]? = some a)
    (hb : t.values[t.offset (corner.set axis (lowEnd index length + 1))]? = some b) :
    t.blend coordinates 1 corner =
      .ok (lerp a b (if length - 1 ≤ index then Arithmetic.ofNat 1 else fraction x), corner) := by
  obtain ⟨hin, hcell⟩ := List.getElem?_eq_some_iff.mp hindex
  have hread : ∀ {c : List Nat} {y : α}, t.values[t.offset c]? = some y →
      t.blend coordinates 0 c = .ok (y, c) := by
    intro c y hy
    rw [blend, entry_eq_ok.mpr hy]
    rfl
  have hends : ∀ w, t.between coordinates 0 axis (lowEnd index length) index w corner =
      .ok (lerp a b w, corner) := by
    intro w
    have hlow : (along (corner.set axis (lowEnd index length)) axis : Except (ModelError α) Nat) =
        .ok (lowEnd index length) := along_eq_ok.mpr (List.getElem?_set_self hin)
    rw [between, hread ha, outcome_ok_bind]
    dsimp only
    rw [hlow, outcome_ok_bind, List.set_set, hread hb, outcome_ok_bind]
    change Except.ok (lerp a b w, (corner.set axis _).set axis index) = _
    rw [List.set_set, ← hcell, List.set_getElem_self]
  have hlast : t.rank - (0 + 1) = axis := by omega
  have hshort : ¬ length < 2 := Nat.not_lt.mpr hlong
  rw [blend_succ, hlast, along_eq_ok.mpr hlength, outcome_ok_bind, if_neg hshort,
    along_eq_ok.mpr hindex, outcome_ok_bind]
  by_cases htop : length - 1 ≤ index
  · have hlow : lowEnd index length = length - 2 := by rw [lowEnd, if_neg hshort, if_pos htop]
    rw [if_pos htop, if_pos htop, ← hlow]
    exact hends _
  · have hlow : lowEnd index length = index := by rw [lowEnd, if_neg hshort, if_neg htop]
    have hinside := hends (fraction x)
    rw [hlow] at hinside
    rw [if_neg htop, if_neg htop, along_eq_ok.mpr hx, outcome_ok_bind]
    exact hinside

/-- The flat positions of an accepted table number its nodes: each node has one of its own below the number
of values, and none of these is left out; they come in the lexicographic order of the nodes; one index more
on an axis adds the number of nodes of the axes after it.
A blend along the last axis reads the values at two positions side by side, which are those of neighbours
on that axis, the top edge included. -/
theorem Accepted.numbers_nodes (h : t.Accepted) :
    Set.BijOn t.offset {node | OnGrid node t.dims} (Set.Iio t.values.size) ∧
    (∀ node node', OnGrid node t.dims → OnGrid node' t.dims →
      (t.offset node < t.offset node' ↔ node < node')) ∧
    (∀ (node : List Nat) (j i : Nat), OnGrid node t.dims → node[j]? = some i →
      OnGrid (node.set j (i + 1)) t.dims →
      t.offset (node.set j (i + 1)) = t.offset node + gridSize (t.dims.drop (j + 1))) ∧
    ∀ (coordinates : List α) (corner : List Nat) (axis length index : Nat) (x : α),
      axis + 1 = t.rank → OnGrid corner t.dims → t.dims[axis]? = some length → 2 ≤ length →
      corner[axis]? = some index → coordinates[axis]? = some x →
      OnGrid (corner.set axis (lowEnd index length + 1)) t.dims ∧
      t.offset (corner.set axis (lowEnd index length + 1)) =
        t.offset (corner.set axis (lowEnd index length)) + 1 ∧
      ∃ a b, t.values[t.offset (corner.set axis (lowEnd index length))]? = some a ∧
        t.values[t.offset (corner.set axis (lowEnd index length)) + 1]? = some b ∧
        t.blend coordinates 1 corner =
          .ok (lerp a b (if length - 1 ≤ index then Arithmetic.ofNat 1 else fraction x), corner) := by
  have hvalues := h.size_eq
  refine ⟨offset_bijOn hvalues, fun _ _ => offset_lt_iff,
    fun _ _ _ hnode hi _ => offset_set hnode.length_eq hi, ?_⟩
  intro coordinates corner axis length index x haxis hcorner hlength hlong hindex hx
  have hmove : ∀ i, i < length → OnGrid (corner.set axis i) t.dims := fun i hi =>
    onGrid_set hcorner fun d hd => by
      cases hlength.symm.trans hd
      exact hi
  have hend := lowEnd_succ_lt (hcorner.index_lt hindex hlength) hlong
  have hlow := hmove _ (Nat.lt_of_succ_lt hend)
  have hhigh := hmove _ hend
  have hlast : axis + 1 = t.dims.length := haxis.trans (List.length_map _).symm
  have hcell := List.getElem?_set_self (a := lowEnd index length) (List.getElem?_eq_some_iff.mp hindex).1
  have hside := offset_succ_last hlow.length_eq hlast hcell
  rw [List.set_set] at hside
  have ha := Array.getElem?_eq_getElem (offset_lt hlow hvalues)
  have hb := Array.getElem?_eq_getElem (offset_lt hhigh hvalues)
  refine ⟨hhigh, hside, _, _, ha, ?_, blend_last haxis hlength hindex hx hlong ha hb⟩
  rw [← hside]
  exact hb

end Table

/-- Every table of a draft has been accepted. -/
theorem Draft.Sound.accepted {α : Type} {d : Draft α} (hd : d.Sound) {t : Table α} (ht : t ∈ d.tables) :
    t.Accepted := by
  obtain ⟨i, hi⟩ := Array.getElem?_of_mem ht
  obtain ⟨hne, hvalues, hsize⟩ := hd.grids.shape i t hi
  exact Table.accepted_of_shape hne (hd.grids.dims_pos hi) hvalues hsize

/-- A table over three axes, the middle one of a single point, with a function that reads it. -/
def shelved : Draft Float :=
  .after "shelved"
    [ .signal (Signal.declare "x" "x" ""), .breakpoints "A" [0, 1], .breakpoints "B" [5],
      .breakpoints "C" [0, 1, 2], .table (some "T") ["A", "B", "C"] #[0, 1, 2, 10, 11, 12],
      .function "f" "T" ["x", "x", "x"] "y" ]

/-- The last node of the first row comes right before the first of the second. A blend from the last node
of all reads the last interval of its row. -/
theorem shelved_numbered : ∃ t ∈ shelved.tables, t.users ≠ [] ∧ t.dims = [2, 1, 3] ∧ t.Accepted ∧
    Set.BijOn t.offset {node | OnGrid node t.dims} (Set.Iio 6) ∧
    OnGrid [0, 0, 2] t.dims ∧ OnGrid [1, 0, 0] t.dims ∧ t.offset [0, 0, 2] < t.offset [1, 0, 0] ∧
    OnGrid [1, 0, 2] t.dims ∧ t.offset [1, 0, 2] = t.offset [0, 0, 2] + 3 ∧
    t.offset [1, 0, 2] = t.offset [1, 0, 1] + 1 ∧
    ∃ a b, t.values[t.offset [1, 0, 1]]? = some a ∧ t.values[t.offset [1, 0, 1] + 1]? = some b ∧
      t.blend [1, 0, 7] 1 [1, 0, 2] = .ok (Table.lerp a b (Arithmetic.ofNat 1), [1, 0, 2]) := by
  have hshape : shelved.tables[0]?.map (fun t => (t.users.isEmpty, t.dims, t.values.size, t.rank)) =
      some (false, [2, 1, 3], 6, 3) := by
    decide +kernel
  obtain ⟨t, ht, hshape⟩ := Option.map_eq_some_iff.mp hshape
  simp only [Prod.mk.injEq] at hshape
  obtain ⟨hread, hdims, hcount, hrank⟩ := hshape
  have hmem : t ∈ shelved.tables := Array.mem_of_getElem? ht
  have hsound : shelved.Sound := (Draft.reachable_after _ _).sound
  have hon : ∀ i k : Nat, i < 2 → k < 3 → OnGrid [i, 0, k] t.dims := fun i k hi hk =>
    hdims ▸ .cons hi (.cons Nat.one_pos (.cons hk .nil))
  obtain ⟨hbij, horder, hstep, hblend⟩ := Table.Accepted.numbers_nodes (hsound.accepted hmem)
  obtain ⟨-, hside, a, b, ha, hb, hlast⟩ := hblend [1, 0, 7] [1, 0, 2] 2 3 2 7 hrank.symm
    (hon 1 2 (by decide) (by decide)) (by rw [hdims]; rfl) (by decide) rfl rfl
  have hrow := hstep [0, 0, 2] 0 0 (hon 0 2 (by decide) (by decide)) rfl (hon 1 2 (by decide) (by decide))
  rw [hdims] at hrow
  rw [hcount] at hbij
  refine ⟨t, hmem, by simpa using hread, hdims, hsound.accepted hmem, hbij,
    hon 0 2 (by decide) (by decide), hon 1 0 (by decide) (by decide), ?_, hon 1 2 (by decide) (by decide),
    hrow, hside, a, b, ha, hb, hlast⟩
  exact (horder _ _ (hon 0 2 (by decide) (by decide)) (hon 1 0 (by decide) (by decide))).mpr (by decide)

end BlockDiagram
