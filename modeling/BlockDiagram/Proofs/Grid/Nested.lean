import BlockDiagram.Proofs.Draft.Reachable
import BlockDiagram.Proofs.Grid.Interpolation
import BlockDiagram.Scalar.Double
/-! Nested interpolation: reading a table by recursion on its axes, with nothing to move and put back.
Blending, for which one corner is moved about, gives the same outcome on every table. -/

namespace BlockDiagram

variable {α : Type}

section Nested

variable [Arithmetic α]

/-- The interval to blend over on an axis of two points or more: the index of its lower end and the weight
of its upper end. At or past the top edge it is the last interval at full weight; a coordinate that is not
positive, or is no number, stands for the first point. -/
def interval (x : α) (length : Nat) : Nat × α :=
  if Arithmetic.lt (Arithmetic.ofNat 0) x then
    let whole := Arithmetic.toIndex (Arithmetic.floor x)
    if length - 1 ≤ whole then (length - 2, Arithmetic.ofNat 1)
    else (whole, x - Arithmetic.floor x)
  else (0, Arithmetic.ofNat 0)

/-- Interpolation of what `read` gives at the nodes, the first axis outermost. Each axis chooses its
interval by its own coordinate alone; one with a single point has nothing to blend. -/
def nested {m : Type → Type} [Monad m] (read : List Nat → m α) : List Nat → List α → m α
  | length :: dims, x :: point =>
    if length < 2 then nested (fun node => read (0 :: node)) dims point
    else do
      let (low, weight) := interval x length
      let a ← nested (fun node => read (low :: node)) dims point
      let b ← nested (fun node => read ((low + 1) :: node)) dims point
      return Table.lerp a b weight
  | _, _ => read []

theorem interval_top {x : α} {length : Nat} (hlength : ¬ length < 2)
    (htop : length - 1 ≤ Table.cell x length) :
    interval x length = (length - 2, Arithmetic.ofNat 1) := by
  have hwhole := Nat.le_trans htop (Nat.min_le_left _ _)
  rw [interval]
  split
  · rename_i hpositive
    rw [if_pos hpositive] at hwhole
    exact if_pos hwhole
  · rename_i hpositive
    rw [if_neg hpositive] at hwhole
    omega

theorem interval_inside {x : α} {length : Nat} (hinside : ¬ length - 1 ≤ Table.cell x length) :
    interval x length = (Table.cell x length, Table.fraction x) := by
  rw [Table.cell] at hinside ⊢
  rw [interval, Table.fraction]
  split
  · rename_i hpositive
    rw [if_pos hpositive] at hinside
    dsimp only
    rw [if_neg (by omega), Nat.min_eq_left (by omega)]
  · rw [Nat.zero_min]

theorem interval_lt (x : α) {length : Nat} (hlength : ¬ length < 2) :
    (interval x length).1 + 1 < length := by
  by_cases htop : length - 1 ≤ Table.cell x length
  · rw [interval_top hlength htop]
    omega
  · rw [interval_inside htop]
    omega

/-- Only the nodes of the grid are read. -/
theorem nested_congr {m : Type → Type} [Monad m] {read read' : List Nat → m α} {dims : List Nat}
    (hpos : ∀ d ∈ dims, 0 < d) {point : List α} (hpoint : point.length = dims.length)
    (h : ∀ node, OnGrid node dims → read node = read' node) :
    nested read dims point = nested read' dims point := by
  induction dims generalizing read read' point with
  | nil =>
      obtain rfl := List.length_eq_zero_iff.mp hpoint
      exact h [] .nil
  | cons d dims ih =>
      obtain ⟨x, point, rfl⟩ := List.exists_cons_of_length_eq_add_one hpoint
      have hnext : ∀ i, i < d →
          nested (fun node => read (i :: node)) dims point =
            nested (fun node => read' (i :: node)) dims point := fun i hi =>
        ih (fun e he => hpos e (List.mem_cons_of_mem d he)) (Nat.succ.inj hpoint) fun node hnode =>
          h (i :: node) (.cons hi hnode)
      rw [nested, nested]
      split
      · exact hnext 0 (hpos d List.mem_cons_self)
      · rename_i hlength
        have hlow := interval_lt x hlength
        dsimp only
        rw [hnext _ (Nat.lt_of_succ_lt hlow), hnext _ hlow]

/-- Where every node has a value, nothing can fail. -/
theorem nested_ok (value : List Nat → α) (dims : List Nat) (point : List α) :
    nested (fun node => (.ok (value node) : Except (ModelError α) α)) dims point =
      .ok (Id.run (nested value dims point)) := by
  induction dims generalizing value point with
  | nil => rfl
  | cons d dims ih =>
      cases point with
      | nil => rfl
      | cons x point =>
          rw [nested, nested]
          split
          · exact ih _ point
          · dsimp only
            rw [ih, outcome_ok_bind, ih]
            rfl

end Nested

namespace Table

variable [Arithmetic α]

/-- Both ends of an interval are blended from, and the corner comes back as it was. -/
theorem between_eq {t : Table α} {coordinates : List α} {depth low index : Nat} {before after : List Nat}
    {w : α} {a b : Except (ModelError α) α}
    (ha : t.blend coordinates depth (before ++ low :: after) = (·, before ++ low :: after) <$> a)
    (hb : t.blend coordinates depth (before ++ (low + 1) :: after) =
      (·, before ++ (low + 1) :: after) <$> b) :
    t.between coordinates depth before.length low index w (before ++ index :: after) =
      (·, before ++ index :: after) <$> (do return lerp (← a) (← b) w) := by
  have hset : ∀ i j : Nat, (before ++ i :: after).set before.length j = before ++ j :: after := by
    intro i j
    rw [List.set_append_right _ _ (Nat.le_refl _), Nat.sub_self, List.set_cons_zero]
  have halong : (along (before ++ low :: after) before.length : Except (ModelError α) Nat) = .ok low :=
    along_eq_ok.mpr (by simp)
  cases a with
  | error e =>
      rw [between, hset, ha]
      rfl
  | ok x =>
      have hlow : t.blend coordinates depth (before ++ low :: after) = .ok (x, before ++ low :: after) := ha
      rw [between, hset, hlow, outcome_ok_bind]
      dsimp only
      rw [halong, outcome_ok_bind, hset, hb]
      cases b with
      | error e => rfl
      | ok y =>
          change Except.ok (lerp x y w, (before ++ (low + 1) :: after).set before.length index) = _
          rw [hset]
          rfl

/-- Blending along the last axes, with the indices on the others fixed, is the recursion on those axes;
whatever its outcome, the corner is not changed. The induction is on the axes still to be blended along,
from the first of them; what is fixed grows at its end. -/
theorem blend_nested {t : Table α} {front rest : List Nat} (hdims : t.dims = front ++ rest)
    {passed point : List α} (hpassed : passed.length = front.length)
    (hpoint : point.length = rest.length) {node : List Nat} (hnode : node.length = front.length) :
    t.blend (passed ++ point) rest.length (node ++ List.zipWith cell point rest) =
      (·, node ++ List.zipWith cell point rest) <$>
        nested (fun after => entry t.values (t.offset (node ++ after))) rest point := by
  induction rest generalizing front passed point node with
  | nil =>
      obtain rfl := List.length_eq_zero_iff.mp hpoint
      rw [List.zipWith_nil_right, List.append_nil, List.length_nil, blend, nested, List.append_nil]
      · cases (entry t.values (t.offset node) : Except (ModelError α) α) <;> rfl
      · simp
  | cons d rest ih =>
      obtain ⟨x, point, rfl⟩ := List.exists_cons_of_length_eq_add_one hpoint
      have hrest : point.length = rest.length := Nat.succ.inj hpoint
      have haxis : t.rank - (rest.length + 1) = front.length := by
        have hrank : t.rank = front.length + (rest.length + 1) := by
          rw [← List.length_cons, ← List.length_append, ← hdims, dims, List.length_map, rank]
        omega
      -- The blend along the axes that follow, once the index on this one is fixed.
      have hnext : ∀ i, t.blend (passed ++ x :: point) rest.length
          (node ++ i :: List.zipWith cell point rest) =
            (·, node ++ i :: List.zipWith cell point rest) <$>
              nested (fun after => entry t.values (t.offset (node ++ i :: after))) rest point := by
        intro i
        have hsplit : (passed ++ [x]).length = (front ++ [d]).length := by simp [hpassed]
        have hfixed : (node ++ [i]).length = (front ++ [d]).length := by simp [hnode]
        have hstep := ih (by rw [hdims]; simp) hsplit hrest hfixed
        simpa using hstep
      have hlength : (along t.dims front.length : Except (ModelError α) Nat) = .ok d :=
        along_eq_ok.mpr (by rw [hdims]; simp)
      have hindex : (along (node ++ cell x d :: List.zipWith cell point rest) front.length :
          Except (ModelError α) Nat) = .ok (cell x d) :=
        along_eq_ok.mpr (by rw [← hnode]; simp)
      have hcoordinate : (along (passed ++ x :: point) front.length : Except (ModelError α) α) = .ok x :=
        along_eq_ok.mpr (by rw [← hpassed]; simp)
      rw [List.zipWith_cons_cons, List.length_cons, blend_succ, haxis, hlength, outcome_ok_bind, nested]
      split
      · have hcell : cell x d = 0 := by
          rw [cell]
          omega
        rw [hcell]
        exact hnext 0
      · rename_i hlong
        rw [hindex, outcome_ok_bind]
        split
        · rename_i htop
          rw [interval_top hlong htop, ← hnode]
          exact between_eq (hnext _) (hnext _)
        · rename_i htop
          rw [interval_inside htop, hcoordinate, outcome_ok_bind, ← hnode]
          exact between_eq (hnext _) (hnext _)

theorem interpolate_nested (t : Table α) {coordinates : List α} (h : coordinates.length = t.rank) :
    t.interpolate coordinates =
      nested (fun node => entry t.values (t.offset node)) t.dims coordinates := by
  have hrank : t.dims.length = t.rank := List.length_map _
  have hblend := blend_nested (List.nil_append t.dims).symm
    (show ([] : List α).length = ([] : List Nat).length from rfl) (h.trans hrank.symm)
    (show ([] : List Nat).length = ([] : List Nat).length from rfl)
  simp only [List.nil_append, hrank] at hblend
  rw [interpolate, if_pos h, hblend]
  cases nested (fun node => entry t.values (t.offset node)) t.dims coordinates <;> rfl

end Table

/-- Reading a table of a draft at one coordinate an axis is the recursion over the values of its nodes, which
it has in row-major order: it has the outcome of the recursion over what is stored, and no read fails. No
blend that returns has changed the corner it was given, and every blend from a corner on the grid returns. -/
theorem Draft.Reachable.interpolation_nested {α : Type} [Scalar α] {d : Draft α} (hd : d.Reachable)
    {t : Table α} (ht : t ∈ d.tables) :
    (∀ coordinates : List α, coordinates.length = t.rank →
      t.interpolate coordinates =
        nested (fun node => entry t.values (t.offset node)) t.dims coordinates) ∧
    (∀ (coordinates : List α) (depth : Nat) (corner corner' : List Nat) (v : α),
      depth ≤ t.rank → corner.length = t.rank →
      t.blend coordinates depth corner = .ok (v, corner') → corner' = corner) ∧
    ∃ value : List Nat → α,
      (∀ node, OnGrid node t.dims → t.values[rowMajor t.dims node]? = some (value node)) ∧
      ∀ coordinates : List α, coordinates.length = t.rank →
        t.interpolate coordinates = .ok (Id.run (nested value t.dims coordinates)) ∧
        ∀ depth corner, depth ≤ t.rank → OnGrid corner t.dims →
          ∃ v, t.blend coordinates depth corner = .ok (v, corner) := by
  obtain ⟨i, hi⟩ := Array.mem_iff_getElem?.mp ht
  have hgrids := hd.sound.grids
  have hpos := hgrids.dims_pos hi
  obtain ⟨-, hvalues, -⟩ := hgrids.shape i t hi
  have hrank : t.dims.length = t.rank := List.length_map _
  refine ⟨fun coordinates => t.interpolate_nested, ?_, ?_⟩
  · intro coordinates depth corner corner' v hdepth hcorner hblend
    exact Table.blend_restores hdepth hcorner hblend
  · let value := fun node => (t.values[t.offset node]?).getD (Arithmetic.ofNat 0)
    have hvalue : ∀ node, OnGrid node t.dims → t.values[t.offset node]? = some (value node) := by
      intro node hnode
      simp only [value, Array.getElem?_eq_getElem (Table.offset_lt hnode hvalues), Option.getD_some]
    refine ⟨value, fun node hnode => ?_, fun coordinates hcoordinates => ⟨?_, ?_⟩⟩
    · rw [← Table.offset_eq_rowMajor hnode.length_eq]
      exact hvalue node hnode
    · rw [t.interpolate_nested hcoordinates, ← nested_ok]
      exact nested_congr hpos (hcoordinates.trans hrank.symm) fun node hnode =>
        entry_eq_ok.mpr (hvalue node hnode)
    · intro depth corner hdepth hcorner
      exact Table.blend_total hvalues hcoordinates hdepth hcorner

/-- A table with an axis of two points and one of three. -/
def edged : Draft Float :=
  .after "edged"
    [ .breakpoints "A" [0, 1], .breakpoints "B" [0, 1, 2],
      .table (some "T") ["A", "B"] #[0, 1, 2, 10, 11, 12] ]

/-- A point below both axes is read at the first node, and a blend from the last node hands it back. -/
theorem edged_read : ∃ t ∈ edged.tables,
    (∃ v, t.interpolate [-1, 0 / 0] = .ok v ∧ v = 0 ∧
      t.interpolate [-1, 0 / 0] =
        nested (fun node => entry t.values (t.offset node)) t.dims [-1, 0 / 0]) ∧
    OnGrid [1, 2] t.dims ∧ ∃ v, t.blend [-1, 0 / 0] 2 [1, 2] = .ok (v, [1, 2]) := by
  have hshape : edged.tables[0]?.map (fun t => (t.rank, t.dims)) = some (2, [2, 3]) := by decide +kernel
  have hread : edged.tables[0]?.all (fun t =>
      (t.interpolate [-1, 0 / 0]).toOption.any (· = 0)) = true := by
    decide +kernel
  obtain ⟨t, ht, hshape⟩ := Option.map_eq_some_iff.mp hshape
  obtain ⟨hrank, hdims⟩ := Prod.mk.inj hshape
  rw [ht, Option.all_some] at hread
  obtain ⟨v, hv, hzero⟩ := outcome_of_any hread
  have hmem : t ∈ edged.tables := Array.mem_of_getElem? ht
  have hlast : OnGrid [1, 2] t.dims := hdims ▸ .cons (by decide) (.cons (by decide) .nil)
  obtain ⟨hnested, -, value, -, hreturns⟩ :=
    Draft.Reachable.interpolation_nested (Draft.reachable_after _ _) hmem
  refine ⟨t, hmem, ⟨v, hv, of_decide_eq_true hzero, hnested _ hrank.symm⟩, hlast, ?_⟩
  exact (hreturns [-1, 0 / 0] hrank.symm).2 2 [1, 2] (Nat.le_of_eq hrank.symm) hlast

end BlockDiagram
