import BlockDiagram.Completion
import BlockDiagram.Proofs.Call
import BlockDiagram.Proofs.Grid.Sound
import Mathlib.Data.List.Nodup
/-! Edges of a model. A wire is recorded by its signal and by the blocks at its ends; the records
agree, and a signal lists each slot that reads it once. Inputs and outputs are listed besides. -/

namespace BlockDiagram

theorem Handle.nodup_all {arena : Arena} (size : Nat) : (all size : List (Handle arena)).Nodup := by
  refine List.Nodup.map ?_ List.nodup_range
  intro i j hij
  cases hij
  rfl

/-- The handles of an arena stand in the order of their positions. -/
theorem Handle.ascending_all {arena : Arena} (size : Nat) :
    (all size : List (Handle arena)).Pairwise fun a b => a.index < b.index :=
  List.pairwise_map.mpr List.pairwise_lt_range

theorem BlockKind.isInput_iff {α : Type} {k : BlockKind α} : k.isInput = true ↔ k = .input := by
  cases k <;> simp [isInput]

theorem BlockKind.isOutput_iff {α : Type} {k : BlockKind α} : k.isOutput = true ↔ k = .output := by
  cases k <;> simp [isOutput]

namespace Model

variable {α : Type}

@[simp] theorem enroll_signals (m : Model α) (id : BlockId) (k : BlockKind α) :
    (m.enroll id k).signals = m.signals := rfl

@[simp] theorem enroll_blocks (m : Model α) (id : BlockId) (k : BlockKind α) :
    (m.enroll id k).blocks = m.blocks := rfl

@[simp] theorem enroll_breakpoints (m : Model α) (id : BlockId) (k : BlockKind α) :
    (m.enroll id k).breakpoints = m.breakpoints := rfl

@[simp] theorem enroll_tables (m : Model α) (id : BlockId) (k : BlockKind α) :
    (m.enroll id k).tables = m.tables := rfl

theorem signal?_lt {m : Model α} {id : SignalId} {s : Signal α} (h : m.signal? id = some s) :
    id.index < m.signals.size :=
  (Array.getElem?_eq_some_iff.mp h).1

theorem block?_lt {m : Model α} {id : BlockId} {b : Block α} (h : m.block? id = some b) :
    id.index < m.blocks.size :=
  (Array.getElem?_eq_some_iff.mp h).1

theorem exists_signal {m : Model α} {id : SignalId} (h : id.index < m.signals.size) :
    ∃ s, m.signal? id = some s :=
  ⟨m.signals[id.index], Array.getElem?_eq_getElem h⟩

theorem exists_block {m : Model α} {id : BlockId} (h : id.index < m.blocks.size) :
    ∃ b, m.block? id = some b :=
  ⟨m.blocks[id.index], Array.getElem?_eq_getElem h⟩

/-- The kind of a block. -/
def kindOf? (m : Model α) (id : BlockId) : Option (BlockKind α) := (m.block? id).map Block.kind

/-- The input and the output blocks are listed in the order of the arena. -/
structure Enrolled (m : Model α) : Prop where
  inputs : m.inputs = m.blockIds.filter fun id => (m.kindOf? id).any BlockKind.isInput
  outputs : m.outputs = m.blockIds.filter fun id => (m.kindOf? id).any BlockKind.isOutput

theorem filter_blockIds_push {m m' : Model α} {k : BlockKind α} (p : BlockKind α → Bool)
    (hsize : m'.blocks.size = m.blocks.size + 1)
    (hkinds : ∀ id, m'.kindOf? id = if id.index = m.blocks.size then some k else m.kindOf? id) :
    (m'.blockIds.filter fun id => (m'.kindOf? id).any p) =
      (m.blockIds.filter fun id => (m.kindOf? id).any p) ++
        if p k then [⟨m.blocks.size⟩] else [] := by
  have hold : ∀ id ∈ m.blockIds, (m'.kindOf? id).any p = (m.kindOf? id).any p := by
    intro id hid
    rw [blockIds, Handle.mem_all] at hid
    rw [hkinds, if_neg (Nat.ne_of_lt hid)]
  have hlast : m'.blockIds = m.blockIds ++ [⟨m.blocks.size⟩] := by
    simp only [blockIds, Handle.all, hsize, List.range_succ, List.map_append, List.map_cons,
      List.map_nil]
  rw [hlast, List.filter_append, List.filter_congr hold, List.filter_singleton, hkinds, if_pos rfl,
    Option.any_some, Bool.cond_eq_ite]

theorem Enrolled.push {m m' : Model α} (h : m.Enrolled) {k : BlockKind α}
    (hsize : m'.blocks.size = m.blocks.size + 1)
    (hkinds : ∀ id, m'.kindOf? id = if id.index = m.blocks.size then some k else m.kindOf? id)
    (hinputs : m'.inputs = if k.isInput then m.inputs ++ [⟨m.blocks.size⟩] else m.inputs)
    (houtputs : m'.outputs = if k.isOutput then m.outputs ++ [⟨m.blocks.size⟩] else m.outputs) :
    m'.Enrolled := by
  constructor
  · rw [hinputs, filter_blockIds_push BlockKind.isInput hsize hkinds, h.inputs]
    cases k.isInput <;> simp
  · rw [houtputs, filter_blockIds_push BlockKind.isOutput hsize hkinds, h.outputs]
    cases k.isOutput <;> simp

structure EdgesAgree (m : Model α) : Prop where
  inputs : ∀ id b, m.block? id = some b → ∀ s ∈ b.inputs, s.index < m.signals.size
  outputs : ∀ id b, m.block? id = some b → ∀ s, b.output = some s → s.index < m.signals.size
  sinks : ∀ id s, m.signal? id = some s →
    ∀ e, e ∈ s.sinks ↔ ∃ b, m.block? e.block = some b ∧ b.inputs[e.slot]? = some id
  nodup : ∀ id s, m.signal? id = some s → s.sinks.Nodup
  source : ∀ id s, m.signal? id = some s →
    ∀ e, s.source = some e ↔ e.slot = 0 ∧ ∃ b, m.block? e.block = some b ∧ b.output = some id

namespace EdgesAgree

variable {m : Model α}

theorem read (h : m.EdgesAgree) {id : BlockId} {b : Block α} (hb : m.block? id = some b) {slot : Nat}
    {s : SignalId} (hs : b.inputs[slot]? = some s) :
    ∃ x, m.signal? s = some x ∧ (⟨id, slot⟩ : Endpoint) ∈ x.sinks := by
  obtain ⟨x, hx⟩ := exists_signal (h.inputs id b hb s (List.mem_of_getElem? hs))
  exact ⟨x, hx, (h.sinks s x hx ⟨id, slot⟩).mpr ⟨b, hb, hs⟩⟩

theorem output_unique (h : m.EdgesAgree) {i j : BlockId} {b c : Block α} (hb : m.block? i = some b)
    (hc : m.block? j = some c) {s : SignalId} (hbs : b.output = some s) (hcs : c.output = some s) :
    i = j := by
  obtain ⟨x, hx⟩ := exists_signal (h.outputs i b hb s hbs)
  have hi := (h.source s x hx ⟨i, 0⟩).mpr ⟨rfl, b, hb, hbs⟩
  have hj := (h.source s x hx ⟨j, 0⟩).mpr ⟨rfl, c, hc, hcs⟩
  rw [hi] at hj
  cases hj
  rfl

/-- Only wires matter: neither values nor stamps of blocks, nor anything but wires of signals. -/
theorem congr (h : m.EdgesAgree) {m' : Model α} (hsize : m'.signals.size = m.signals.size)
    (hblocks : ∀ id b', m'.block? id = some b' →
      ∃ b, m.block? id = some b ∧ b'.inputs = b.inputs ∧ b'.output = b.output)
    (hblocks' : ∀ id b, m.block? id = some b →
      ∃ b', m'.block? id = some b' ∧ b'.inputs = b.inputs ∧ b'.output = b.output)
    (hsignals : ∀ id s', m'.signal? id = some s' →
      ∃ s, m.signal? id = some s ∧ s'.sinks = s.sinks ∧ s'.source = s.source) : m'.EdgesAgree := by
  constructor
  · intro id b' hb' s hs
    obtain ⟨b, hb, hinputs, -⟩ := hblocks id b' hb'
    rw [hsize]
    exact h.inputs id b hb s (hinputs ▸ hs)
  · intro id b' hb' s hs
    obtain ⟨b, hb, -, houtput⟩ := hblocks id b' hb'
    rw [hsize]
    exact h.outputs id b hb s (houtput ▸ hs)
  · intro id s' hs' e
    obtain ⟨s, hs, hsinks, -⟩ := hsignals id s' hs'
    rw [hsinks, h.sinks id s hs e]
    constructor
    · rintro ⟨b, hb, hin⟩
      obtain ⟨b', hb', hinputs, -⟩ := hblocks' e.block b hb
      exact ⟨b', hb', hinputs ▸ hin⟩
    · rintro ⟨b', hb', hin⟩
      obtain ⟨b, hb, hinputs, -⟩ := hblocks e.block b' hb'
      exact ⟨b, hb, hinputs ▸ hin⟩
  · intro id s' hs'
    obtain ⟨s, hs, hsinks, -⟩ := hsignals id s' hs'
    rw [hsinks]
    exact h.nodup id s hs
  · intro id s' hs' e
    obtain ⟨s, hs, -, hsource⟩ := hsignals id s' hs'
    rw [hsource, h.source id s hs e]
    constructor
    · rintro ⟨hslot, b, hb, hout⟩
      obtain ⟨b', hb', -, houtput⟩ := hblocks' e.block b hb
      exact ⟨hslot, b', hb', houtput ▸ hout⟩
    · rintro ⟨hslot, b', hb', hout⟩
      obtain ⟨b, hb, -, houtput⟩ := hblocks e.block b' hb'
      exact ⟨hslot, b, hb, houtput ▸ hout⟩

end EdgesAgree

end Model

end BlockDiagram
