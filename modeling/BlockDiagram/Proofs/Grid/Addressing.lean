import BlockDiagram.Grid.Table
import Mathlib.Algebra.BigOperators.Group.List.Lemmas
import Mathlib.Algebra.Order.BigOperators.GroupWithZero.List
import Mathlib.Data.List.Lex
import Mathlib.Tactic.Ring
/-! Addressing: the nodes of a grid in row-major order, which are the flat positions that a table computes
for them. -/

namespace BlockDiagram

/-- The node is one of the grid with the given axis lengths. -/
def OnGrid (node dims : List Nat) : Prop := List.Forall₂ (· < ·) node dims

/-- The place of a node in row-major order, the last axis varying fastest. -/
def rowMajor (dims node : List Nat) : Nat :=
  (List.zip node dims).foldl (fun place (index, length) => place * length + index) 0

theorem le_gridSize {dims : List Nat} (hpos : ∀ d ∈ dims, 0 < d) {d : Nat} (hd : d ∈ dims) :
    d ≤ gridSize dims := by
  have hdvd : d ∣ dims.prod := List.dvd_prod hd
  have hprod : 0 < dims.prod := List.prod_pos hpos
  exact Nat.le_of_dvd hprod hdvd

theorem foldl_rowMajor {node dims : List Nat} (h : node.length = dims.length) (start : Nat) :
    (List.zip node dims).foldl (fun place (index, length) => place * length + index) start =
      start * gridSize dims + rowMajor dims node := by
  induction dims generalizing node start with
  | nil =>
      obtain rfl := List.length_eq_zero_iff.mp h
      exact (Nat.mul_one start).symm
  | cons d dims ih =>
      obtain ⟨i, node, rfl⟩ := List.exists_cons_of_length_eq_add_one h
      have hrest : node.length = dims.length := Nat.succ.inj h
      rw [rowMajor, List.zip_cons_cons, List.foldl_cons, List.foldl_cons, ih hrest, ih hrest,
        show gridSize (d :: dims) = d * gridSize dims from rfl]
      ring

theorem rowMajor_cons {i d : Nat} {node dims : List Nat} (h : node.length = dims.length) :
    rowMajor (d :: dims) (i :: node) = i * gridSize dims + rowMajor dims node := by
  rw [rowMajor, List.zip_cons_cons, List.foldl_cons, foldl_rowMajor h]
  dsimp only
  rw [Nat.zero_mul, Nat.zero_add]

theorem rowMajor_lt {node dims : List Nat} (h : OnGrid node dims) : rowMajor dims node < gridSize dims := by
  induction h with
  | nil => exact Nat.one_pos
  | @cons i d node dims hid hrest ih =>
      rw [rowMajor_cons hrest.length_eq]
      calc i * gridSize dims + rowMajor dims node < (i + 1) * gridSize dims := by
            rw [Nat.succ_mul]
            exact Nat.add_lt_add_left ih _
        _ ≤ d * gridSize dims := Nat.mul_le_mul_right _ hid

/-- Every place below the number of nodes is that of a node. -/
theorem exists_node {dims : List Nat} {place : Nat} (h : place < gridSize dims) :
    ∃ node, OnGrid node dims ∧ rowMajor dims node = place := by
  induction dims generalizing place with
  | nil => exact ⟨[], .nil, (Nat.lt_one_iff.mp h).symm⟩
  | cons d dims ih =>
      have hplace : place < d * gridSize dims := h
      have hpos : 0 < gridSize dims := Nat.pos_of_lt_mul_left hplace
      obtain ⟨node, hnode, hrest⟩ := ih (Nat.mod_lt place hpos)
      refine ⟨place / gridSize dims :: node, .cons (Nat.div_lt_of_lt_mul ?_) hnode, ?_⟩
      · rwa [Nat.mul_comm]
      · rw [rowMajor_cons hnode.length_eq, hrest]
        exact Nat.div_add_mod' place (gridSize dims)

theorem OnGrid.index_lt {node dims : List Nat} (h : OnGrid node dims) {axis index length : Nat}
    (hindex : node[axis]? = some index) (hlength : dims[axis]? = some length) : index < length := by
  obtain ⟨hn, rfl⟩ := List.getElem?_eq_some_iff.mp hindex
  obtain ⟨hd, rfl⟩ := List.getElem?_eq_some_iff.mp hlength
  exact (List.forall₂_iff_get.mp h).2 axis hn hd

/-- Row-major order is the lexicographic order of the nodes. -/
theorem rowMajor_lt_iff {node node' dims : List Nat} (h : OnGrid node dims) (h' : OnGrid node' dims) :
    rowMajor dims node < rowMajor dims node' ↔ node < node' := by
  induction h generalizing node' with
  | nil =>
      cases h'
      simp
  | @cons i d node dims hid hrest ih =>
      cases h' with
      | @cons k _ other _ hkd hother =>
          rw [List.cons_lt_cons_iff, rowMajor_cons hrest.length_eq, rowMajor_cons hother.length_eq]
          have hlow := rowMajor_lt hrest
          have hhigh := rowMajor_lt hother
          -- A row is as long as the grid of the axes that follow, so the first index decides if it can.
          have hrow : ∀ {a b p q : Nat}, a < b → p < gridSize dims →
              a * gridSize dims + p < b * gridSize dims + q := by
            intro a b p q hab hp
            calc a * gridSize dims + p < (a + 1) * gridSize dims := by
                  rw [Nat.succ_mul]
                  exact Nat.add_lt_add_left hp _
              _ ≤ b * gridSize dims := Nat.mul_le_mul_right _ hab
              _ ≤ b * gridSize dims + q := Nat.le_add_right _ _
          rcases Nat.lt_trichotomy i k with hlt | rfl | hgt
          · exact iff_of_true (hrow hlt hlow) (.inl hlt)
          · rw [Nat.add_lt_add_iff_left, ih hother]
            simp
          · refine iff_of_false (Nat.lt_asymm (hrow hgt hhigh)) ?_
            rintro (hlt | ⟨rfl, -⟩)
            · exact Nat.lt_asymm hgt hlt
            · exact Nat.lt_irrefl _ hgt

/-- One index more on an axis skips the nodes of the axes after it. -/
theorem rowMajor_set {node dims : List Nat} (h : node.length = dims.length) {j i : Nat}
    (hi : node[j]? = some i) :
    rowMajor dims (node.set j (i + 1)) = rowMajor dims node + gridSize (dims.drop (j + 1)) := by
  induction dims generalizing node j with
  | nil =>
      rw [List.length_eq_zero_iff.mp h] at hi
      cases hi
  | cons d dims ih =>
      obtain ⟨k, node, rfl⟩ := List.exists_cons_of_length_eq_add_one h
      have hrest : node.length = dims.length := Nat.succ.inj h
      cases j with
      | zero =>
          cases hi
          rw [List.set_cons_zero, rowMajor_cons hrest, rowMajor_cons hrest, List.drop_succ_cons,
            List.drop_zero, Nat.succ_mul]
          omega
      | succ j =>
          have hstep : (node.set j (i + 1)).length = dims.length := by rw [List.length_set, hrest]
          rw [List.set_cons_succ, rowMajor_cons hstep, rowMajor_cons hrest, ih hrest hi,
            List.drop_succ_cons, Nat.add_assoc]

namespace Table

variable {α : Type} {t : Table α} {node : List Nat}

/-- A table stores its nodes in row-major order. -/
theorem offset_eq_rowMajor (h : node.length = t.dims.length) : t.offset node = rowMajor t.dims node := by
  rw [offset]
  generalize t.dims = dims at h ⊢
  induction dims generalizing node with
  | nil =>
      obtain rfl := List.length_eq_zero_iff.mp h
      rfl
  | cons d dims ih =>
      obtain ⟨i, node, rfl⟩ := List.exists_cons_of_length_eq_add_one h
      have hrest : node.length = dims.length := Nat.succ.inj h
      rw [rowMajor_cons hrest, strides, List.zipWith_cons_cons, List.foldr_cons, ih hrest]

theorem offset_lt (h : OnGrid node t.dims) (hvalues : t.values.size = gridSize t.dims) :
    t.offset node < t.values.size := by
  rw [offset_eq_rowMajor h.length_eq, hvalues]
  exact rowMajor_lt h

theorem offset_set (h : node.length = t.dims.length) {j i : Nat} (hi : node[j]? = some i) :
    t.offset (node.set j (i + 1)) = t.offset node + gridSize (t.dims.drop (j + 1)) := by
  have hset : (node.set j (i + 1)).length = t.dims.length := by rw [List.length_set, h]
  rw [offset_eq_rowMajor hset, offset_eq_rowMajor h, rowMajor_set h hi]

/-- A step along the last axis is a step in the flat order. -/
theorem offset_succ_last (h : node.length = t.dims.length) {axis i : Nat}
    (haxis : axis + 1 = t.dims.length) (hi : node[axis]? = some i) :
    t.offset (node.set axis (i + 1)) = t.offset node + 1 := by
  rw [offset_set h hi, haxis, List.drop_length]
  rfl

end Table

end BlockDiagram
