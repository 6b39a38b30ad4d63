import BlockDiagram.Proofs.Draft.Realization
import BlockDiagram.Proofs.Model.Census
/-! Census of a draft: its blocks, told as those of a model are. Wiring leaves the census as it is. -/

namespace BlockDiagram

variable {α : Type}

namespace Draft

variable {d : Draft α}

def label? (d : Draft α) (id : SignalId) : Option String := d.signals[id.index]?.bind Signal.label?

/-- What a census shows of a variable: its ID, if it has been declared. -/
def shown? (d : Draft α) (v : String) : Option String := (d.signalId? v).bind d.label?

/-- The variable that a slot reads, if it has been declared. -/
def reads? (d : Draft α) : Option Reference → Option String
  | some (.signal id) => d.label? id
  | some (.variable v) => d.shown? v
  | none => none

def row (d : Draft α) (b : DraftBlock α) : Row α := ⟨b.kind, b.inputs.map d.reads?⟩

/-- The census of a draft: a row for each block, in the order of the arena. -/
def rows (d : Draft α) : List (Row α) := d.blocks.toList.map d.row

theorem length_rows (d : Draft α) : d.rows.length = d.blocks.size := by
  rw [rows, List.length_map, Array.length_toList]

theorem rows_getElem? {i : Nat} {b : DraftBlock α} (hb : d.blocks[i]? = some b) :
    d.rows[i]? = some (d.row b) := by
  rw [rows, List.getElem?_map, Array.getElem?_toList, hb, Option.map_some]

section Shown

theorem shown?_of_signal (hd : d.Sound) {i : Nat} {s : Signal α} (hs : d.signals[i]? = some s) :
    d.shown? s.varId = s.label? := by
  have hid : d.signalId? s.varId = some ⟨i⟩ := (signalId?_eq_some hd).mpr ⟨s, hs, rfl⟩
  rw [shown?, hid, Option.bind_some, label?, hs, Option.bind_some]

theorem Derived.shown? [Scalar α] (hd : d.Sound) {v : String} (h : d.Derived v) : d.shown? v = none := by
  obtain ⟨i, hi⟩ := h
  exact shown?_of_signal hd hi

end Shown

section Puts

variable {k : BlockKind α} {ws : List String} {v : String} {i : Nat}

theorem Puts.rows_getElem? (h : d.Puts k ws v i) : d.rows[i]? = some ⟨k, ws.map d.shown?⟩ := by
  obtain ⟨b, r, hb, rfl, hinputs, -⟩ := h
  rw [Draft.rows_getElem? hb, row, hinputs, slots, List.map_map]
  rfl

/-- From the position of a block on, the census goes on with its row. -/
theorem Puts.rows_drop (h : d.Puts k ws v i) :
    d.rows.drop i = ⟨k, ws.map d.shown?⟩ :: d.rows.drop (i + 1) := by
  obtain ⟨hlt, hget⟩ := List.getElem?_eq_some_iff.mp h.rows_getElem?
  rw [List.drop_eq_getElem_cons hlt, hget]

end Puts

section Wiring

theorem resolve_reads? {block : String} {r : Reference} {id : SignalId}
    (h : d.resolve block r = .ok id) : d.reads? (some r) = d.label? id := by
  rcases r with i | v
  · cases h
    rfl
  · rw [resolve] at h
    split at h
    · rename_i hid
      cases h
      rw [reads?, shown?, hid, Option.bind_some]
    · cases h

theorem resolveSlots_reads? {block : String} {slot : Nat} {rs : List (Option Reference)}
    {ids : List SignalId} (h : d.resolveSlots block slot rs = .ok ids) :
    rs.map d.reads? = ids.map d.label? := by
  induction rs generalizing slot ids with
  | nil =>
      cases h
      rfl
  | cons r rs ih =>
      cases r with
      | none => cases h
      | some r =>
          obtain ⟨id, hid, h⟩ := outcome_bind_ok.mp h
          obtain ⟨rest, hrest, h⟩ := outcome_bind_ok.mp h
          cases h
          rw [List.map_cons, List.map_cons, resolve_reads? hid, ih hrest]

variable [Arithmetic α] {m : Model α} {done : List (DraftBlock α)}

theorem Wired.label?_eq (h : d.Wired done m) : m.label? = d.label? := by
  funext id
  rw [Model.label?, label?]
  cases hs : m.signal? id with
  | some s =>
      rw [h.signal? hs]
      rfl
  | none =>
      have hsize := Array.getElem?_eq_none_iff.mp hs
      rw [h.signalCount] at hsize
      rw [Array.getElem?_eq_none hsize]

/-- The model that a draft is wired to has the census of the draft. -/
theorem Wired.rows_eq (h : d.Wired d.blocks.toList m) : m.rows = d.rows := by
  refine List.ext_getElem? fun i => ?_
  rw [Model.rows, rows, List.getElem?_map, List.getElem?_map, Array.getElem?_toList,
    Array.getElem?_toList]
  cases hb : d.blocks[i]? with
  | some b₀ =>
      obtain ⟨b, hm, hres⟩ := h.blocks i b₀ (by rw [Array.getElem?_toList]; exact hb)
      rw [hm, Option.map_some, Option.map_some, Model.row, row, hres.kind, h.label?_eq,
        resolveSlots_reads? hres.inputs]
  | none =>
      have hsize := Array.getElem?_eq_none_iff.mp hb
      rw [← Array.length_toList, ← h.size] at hsize
      rw [Array.getElem?_eq_none hsize]
      rfl

end Wiring

end Draft

end BlockDiagram
