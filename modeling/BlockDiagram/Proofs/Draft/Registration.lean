import BlockDiagram.Proofs.Draft.Progress
import BlockDiagram.Proofs.Grid.Addressing
import BlockDiagram.Scalar.Double
/-! Registration of tables: the number of values is compared with the number of nodes, which is multiplied up
before. A table that is registered has a value for every node; where no word holds the number of nodes,
there is no comparison, as the program stops on the way. -/

namespace BlockDiagram

open Call

namespace Draft

variable {α : Type} {d : Draft α}

/-- Registering a table under a free ID over axes of known lengths succeeds just if there are as many values
as nodes and a word holds their number. Otherwise it says what is wrong with the shape if the nodes can be
counted, and if they cannot the program stops, whatever the number of values is. A registered table has a
value for every node. -/
theorem Reachable.registration_shape [Scalar α] (hd : d.Reachable) :
    (∀ (id : Option String) (names : List String) (lengths : List Nat) (values : Array α),
      (∀ i ∈ id, i ∉ d.tableIds) → names ≠ [] → d.AxisLengths names lengths →
      ((∃ table d', (registerTable id names values).run d = .ok table d') ↔
        values.size = gridSize lengths ∧ gridSize lengths < wordSize) ∧
      (gridSize lengths < wordSize →
        ∃ t : Table α, t.id = d.claimedId id ∧ t.axes.map Axis.id = names ∧ t.dims = lengths ∧
          t.values = values ∧ (registerTable id names values).run d =
            if values.size = gridSize lengths then
              .ok ⟨d.tables.size⟩ { d.claimed id with tables := d.tables.push t }
            else .error (.tableShape (d.claimedId id) (gridSize lengths) values.size) (d.claimed id)) ∧
      (wordSize ≤ gridSize lengths → ∃ n, wordSize ≤ n ∧
        (registerTable id names values).run d = .error (.outOfBounds n wordSize) (d.claimed id))) ∧
    ∀ t ∈ d.tables, t.values.size = gridSize t.dims ∧
      ∀ node, OnGrid node t.dims → t.offset node < t.values.size := by
  constructor
  · intro id names lengths values hfree hne hlengths
    have hid : ¬ ∃ i ∈ id, i ∈ d.tableIds := fun ⟨i, hi, hin⟩ => hfree i hi hin
    obtain ⟨t, htid, hnames, hdims, hvalues, hrun⟩ :=
      registerTable_eq hd.sound values hid hne hlengths
    rcases Nat.lt_or_ge (gridSize lengths) wordSize with hlt | hge
    · rw [nodeCount_of_lt (hlengths.pos hd.sound) hlt] at hrun
      dsimp only at hrun
      refine ⟨?_, fun _ => ⟨t, htid, hnames, hdims, hvalues, hrun⟩,
        fun hge => absurd hlt (Nat.not_lt_of_le hge)⟩
      by_cases hfits : values.size = gridSize lengths
      · rw [if_pos hfits] at hrun
        exact iff_of_true ⟨_, _, hrun⟩ ⟨hfits, hlt⟩
      · rw [if_neg hfits] at hrun
        refine iff_of_false ?_ fun h => hfits h.1
        rintro ⟨table, d', hok⟩
        cases hok.symm.trans hrun
    · obtain ⟨n, hn, hcount⟩ := nodeCount_of_le (α := α) hge
      rw [hcount] at hrun
      refine ⟨iff_of_false ?_ fun h => Nat.not_lt_of_le hge h.2, fun hlt => absurd hlt (Nat.not_lt_of_le hge),
        fun _ => ⟨n, hn, hrun⟩⟩
      rintro ⟨table, d', hok⟩
      cases hok.symm.trans hrun
  · intro t ht
    obtain ⟨i, hi⟩ := Array.getElem?_of_mem ht
    obtain ⟨-, hvalues, -⟩ := hd.sound.grids.shape i t hi
    exact ⟨hvalues, fun node hnode => Table.offset_lt hnode hvalues⟩

/-- A table with a value for each node over one axis of two points, taken twice. -/
def paved : Draft Float :=
  .after "paved" [ .breakpoints "A" [0, 1], .table (some "T") ["A", "A"] #[0, 1, 2, 3] ]

/-- Beside it, a table with too few values is refused, and over sixty-four axes the program stops. -/
theorem paved_registrations :
    (∃ t ∈ paved.tables, OnGrid [1, 1] t.dims ∧ t.offset [1, 1] < t.values.size) ∧
    (∃ d', (registerTable (some "U") ["A"] #[5]).run paved = .error (.tableShape "U" 2 1) d') ∧
    ∃ n d', (registerTable (some "U") (List.replicate 64 "A") #[]).run paved =
      .error (.outOfBounds n wordSize) d' := by
  have hset : paved.breakpoints[0]?.map (fun s => (s.id, s.values.length)) = some ("A", 2) := by
    decide +kernel
  have htable : paved.tables[0]?.map Table.dims = some [2, 2] := by decide +kernel
  obtain ⟨s, hs, hpair⟩ := Option.map_eq_some_iff.mp hset
  obtain ⟨hid, hlength⟩ := Prod.mk.inj hpair
  obtain ⟨t, ht, hdims⟩ := Option.map_eq_some_iff.mp htable
  have hlengths : ∀ k, paved.AxisLengths (List.replicate k "A") ((List.replicate k "A").map fun _ => 2) := by
    intro k
    refine List.forall₂_map_right_iff.mpr (List.forall₂_same.mpr fun name hname => ?_)
    exact ⟨s, Array.mem_of_getElem? hs, hid.trans (List.eq_of_mem_replicate hname).symm, hlength⟩
  have hreachable : paved.Reachable := reachable_after _ _
  obtain ⟨hregister, htables⟩ := Reachable.registration_shape hreachable
  have hfree : ∀ i ∈ some "U", i ∉ paved.tableIds := by decide +kernel
  refine ⟨?_, ?_, ?_⟩
  · have hlast : OnGrid [1, 1] t.dims := hdims ▸ .cons (by decide) (.cons (by decide) .nil)
    have hmem := Array.mem_of_getElem? ht
    exact ⟨t, hmem, hlast, (htables t hmem).2 _ hlast⟩
  · obtain ⟨-, hcounted, -⟩ := hregister (some "U") _ _ #[5] hfree (by decide) (hlengths 1)
    obtain ⟨u, -, -, -, -, hrun⟩ := hcounted (by decide)
    rw [if_neg (by decide)] at hrun
    exact ⟨_, hrun⟩
  · obtain ⟨-, -, hstops⟩ := hregister (some "U") _ _ #[] hfree (by decide) (hlengths 64)
    obtain ⟨n, -, hrun⟩ := hstops (by decide)
    exact ⟨n, _, hrun⟩

end Draft

end BlockDiagram
