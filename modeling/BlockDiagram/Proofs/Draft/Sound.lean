import BlockDiagram.Proofs.Draft.Call
import BlockDiagram.Proofs.Grid.Sound
/-! Sound drafts: every handle a draft stores is in range and no two of its signals share a variable
ID. Every call keeps a draft sound, also one that fails half way. -/

namespace BlockDiagram

open Call

namespace Draft

variable {α : Type}

theorem mem_varIds {d : Draft α} {v : String} :
    v ∈ d.varIds ↔ ∃ (i : Nat) (s : Signal α), d.signals[i]? = some s ∧ s.varId = v := by
  simp only [varIds, List.mem_map, Array.mem_toList_iff, Array.mem_iff_getElem?]
  constructor
  · rintro ⟨s, ⟨i, hi⟩, rfl⟩
    exact ⟨i, s, hi, rfl⟩
  · rintro ⟨i, s, hi, rfl⟩
    exact ⟨s, ⟨i, hi⟩, rfl⟩

theorem mem_tableIds {d : Draft α} {id : String} :
    id ∈ d.tableIds ↔ ∃ (i : Nat) (t : Table α), d.tables[i]? = some t ∧ t.id = id := by
  simp only [tableIds, List.mem_map, Array.mem_toList_iff, Array.mem_iff_getElem?]
  constructor
  · rintro ⟨t, ⟨i, hi⟩, rfl⟩
    exact ⟨i, t, hi, rfl⟩
  · rintro ⟨i, t, hi, rfl⟩
    exact ⟨t, ⟨i, hi⟩, rfl⟩

structure Sound (d : Draft α) : Prop where
  grids : GridsSound d.breakpoints d.tables d.blocks.size
  distinct : ∀ (i j : Nat) (s t : Signal α),
    d.signals[i]? = some s → d.signals[j]? = some t → s.varId = t.varId → i = j
  unwired : ∀ (i : Nat) (s : Signal α), d.signals[i]? = some s → s.source = none ∧ s.sinks = []
  kinds : ∀ (i : Nat) (b : DraftBlock α), d.blocks[i]? = some b →
    b.kind.InRange d.breakpoints.size d.tables.size
  inputs : ∀ (i : Nat) (b : DraftBlock α), d.blocks[i]? = some b →
    ∀ id, some (.signal id) ∈ b.inputs → id.index < d.signals.size
  outputs : ∀ (i : Nat) (b : DraftBlock α), d.blocks[i]? = some b →
    ∀ id, b.output = some (.signal id) → id.index < d.signals.size

theorem empty_sound (name : String) : (empty name : Draft α).Sound where
  grids := GridsSound.empty
  distinct := by intro i j s t hs; simp [empty] at hs
  unwired := by intro i s hs; simp [empty] at hs
  kinds := by intro i b hb; simp [empty] at hb
  inputs := by intro i b hb; simp [empty] at hb
  outputs := by intro i b hb; simp [empty] at hb

theorem checkReference_ok {d : Draft α} {id : SignalId} :
    d.checkReference (.signal id) = .ok () ↔ id.index < d.signals.size := by
  unfold checkReference
  split <;> simp_all

theorem mem_bind_inputs {b : DraftBlock α} {slot : Nat} {r s : Reference}
    (h : some s ∈ (b.bind slot r).inputs) : s = r ∨ some s ∈ b.inputs := by
  rcases List.mem_or_eq_of_mem_set h with hold | hnew
  · rcases List.mem_append.mp hold with hin | hopen
    · exact .inr hin
    · have := List.eq_of_mem_replicate hopen
      cases this
  · cases hnew
    exact .inl rfl

namespace Sound

variable {d : Draft α}

theorem push_signal (h : d.Sound) {s : Signal α} (hs : s.varId ∉ d.varIds) :
    ({ d with signals := d.signals.push s.unwired } : Draft α).Sound := by
  have hle : d.signals.size ≤ (d.signals.push s.unwired).size := by simp
  refine { h with distinct := ?_, unwired := ?_, inputs := ?_, outputs := ?_ }
  · intro i j x y hx hy hxy
    simp only [Array.getElem?_push] at hx hy
    rw [mem_varIds] at hs
    have hold := h.distinct i j x y
    split at hx <;> split at hy
    · omega
    · cases hx
      exact absurd ⟨j, y, hy, hxy.symm⟩ hs
    · cases hy
      exact absurd ⟨i, x, hx, hxy⟩ hs
    · exact hold hx hy hxy
  · intro i x hx
    simp only [Array.getElem?_push] at hx
    split at hx
    · cases hx
      exact ⟨rfl, rfl⟩
    · exact h.unwired i x hx
  · intro i b hb id hid
    exact Nat.lt_of_lt_of_le (h.inputs i b hb id hid) hle
  · intro i b hb id hid
    exact Nat.lt_of_lt_of_le (h.outputs i b hb id hid) hle

theorem push_block (h : d.Sound) {d₁ : Draft α} {name : String} {kind : BlockKind α}
    (hd₁ : d.enlist ⟨d.blocks.size⟩ kind = .ok d₁) :
    ({ d₁ with blocks := d₁.blocks.push { name, kind } } : Draft α).Sound := by
  have hgrids := h.grids.mono (Nat.le_succ d.blocks.size)
  have hlast : (⟨d.blocks.size⟩ : BlockId).index < d.blocks.size + 1 := Nat.lt_succ_self _
  obtain ⟨hsignals, hblocks, hsets, htables, hrange, hnew⟩ :
      d₁.signals = d.signals ∧ d₁.blocks = d.blocks ∧ d₁.breakpoints.size = d.breakpoints.size ∧
        d₁.tables.size = d.tables.size ∧ kind.InRange d.breakpoints.size d.tables.size ∧
        GridsSound d₁.breakpoints d₁.tables (d.blocks.size + 1) := by
    unfold enlist at hd₁
    split at hd₁
    · split at hd₁
      · cases hd₁
        exact ⟨rfl, rfl, by simp, rfl, ‹_›, hgrids.enlist_set _ hlast⟩
      · cases hd₁
    · split at hd₁
      · cases hd₁
        exact ⟨rfl, rfl, rfl, by simp, ‹_›, hgrids.enlist_table _ hlast⟩
      · cases hd₁
    · cases hd₁
      refine ⟨rfl, rfl, rfl, rfl, ?_, hgrids⟩
      cases kind <;> first | trivial | simp_all
  have hentry : ∀ (i : Nat) (b : DraftBlock α), (d₁.blocks.push { name, kind })[i]? = some b →
      b = { name, kind } ∨ d.blocks[i]? = some b := by
    intro i b hb
    rw [Array.getElem?_push] at hb
    split at hb
    · exact .inl (by cases hb; rfl)
    · exact .inr (hblocks ▸ hb)
  constructor
  · simpa [hblocks] using hnew
  · simpa only [hsignals] using h.distinct
  · simpa only [hsignals] using h.unwired
  · intro i b hb
    rw [hsets, htables]
    rcases hentry i b hb with rfl | hb
    · exact hrange
    · exact h.kinds i b hb
  · intro i b hb id hid
    rw [hsignals]
    rcases hentry i b hb with rfl | hb
    · cases hid
    · exact h.inputs i b hb id hid
  · intro i b hb id hid
    rw [hsignals]
    rcases hentry i b hb with rfl | hb
    · cases hid
    · exact h.outputs i b hb id hid

theorem set_block (h : d.Sound) {i : Nat} {b b' : DraftBlock α} (hb : d.blocks[i]? = some b)
    (hkind : b'.kind = b.kind)
    (hinputs : ∀ id, some (.signal id) ∈ b'.inputs → id.index < d.signals.size)
    (houtput : ∀ id, b'.output = some (.signal id) → id.index < d.signals.size) :
    ({ d with blocks := d.blocks.setIfInBounds i b' } : Draft α).Sound := by
  have hentry : ∀ (j : Nat) (x : DraftBlock α), (d.blocks.setIfInBounds i b')[j]? = some x →
      x = b' ∨ d.blocks[j]? = some x := by
    intro j x hx
    rw [Array.getElem?_setIfInBounds] at hx
    grind
  refine { h with grids := ?_, kinds := ?_, inputs := ?_, outputs := ?_ }
  · simpa using h.grids
  · intro j x hx
    rcases hentry j x hx with rfl | hx
    · rw [hkind]
      exact h.kinds i b hb
    · exact h.kinds j x hx
  · intro j x hx
    rcases hentry j x hx with rfl | hx
    · exact hinputs
    · exact h.inputs j x hx
  · intro j x hx
    rcases hentry j x hx with rfl | hx
    · exact houtput
    · exact h.outputs j x hx

end Sound

end Draft

end BlockDiagram
