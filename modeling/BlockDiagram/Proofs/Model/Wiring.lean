import BlockDiagram.Proofs.Draft.Sound
import BlockDiagram.Proofs.Model.Edges
/-! Wiring: the blocks of a wired model are those of the draft with every reference resolved, and
both ends of every wire agree. -/

namespace BlockDiagram

namespace Draft

variable {α : Type}

/-- The slots of a block, from `slot` on, that read a signal. -/
def readingSlots (block : BlockId) (signal : SignalId) : Nat → List SignalId → List Endpoint
  | _, [] => []
  | slot, id :: rest =>
    if id = signal then ⟨block, slot⟩ :: readingSlots block signal (slot + 1) rest
    else readingSlots block signal (slot + 1) rest

theorem mem_readingSlots {block : BlockId} {signal : SignalId} {e : Endpoint} {slot : Nat}
    {ids : List SignalId} :
    e ∈ readingSlots block signal slot ids ↔
      e.block = block ∧ ∃ k, e.slot = slot + k ∧ ids[k]? = some signal := by
  induction ids generalizing slot with
  | nil => simp [readingSlots]
  | cons id rest ih =>
      have hshift : (∃ k, e.slot = slot + k ∧ (id :: rest)[k]? = some signal) ↔
          (e.slot = slot ∧ id = signal) ∨ ∃ k, e.slot = slot + 1 + k ∧ rest[k]? = some signal := by
        constructor
        · rintro ⟨k, hk, hget⟩
          cases k with
          | zero => exact .inl ⟨hk, Option.some.inj hget⟩
          | succ k => exact .inr ⟨k, by omega, hget⟩
        · rintro (⟨hslot, rfl⟩ | ⟨k, hk, hget⟩)
          · exact ⟨0, hslot, rfl⟩
          · exact ⟨k + 1, by omega, hget⟩
      rw [hshift, readingSlots]
      by_cases hid : id = signal
      · rw [if_pos hid, List.mem_cons, ih]
        constructor
        · rintro (rfl | ⟨hblock, hrest⟩)
          · exact ⟨rfl, .inl ⟨rfl, hid⟩⟩
          · exact ⟨hblock, .inr hrest⟩
        · rintro ⟨hblock, ⟨hslot, -⟩ | hrest⟩
          · exact .inl (by cases e; cases hblock; cases hslot; rfl)
          · exact .inr ⟨hblock, hrest⟩
      · rw [if_neg hid, ih]
        simp only [hid, and_false, false_or]

theorem readingSlots_nodup (block : BlockId) (signal : SignalId) (slot : Nat)
    (ids : List SignalId) : (readingSlots block signal slot ids).Nodup := by
  induction ids generalizing slot with
  | nil => exact List.nodup_nil
  | cons id rest ih =>
      rw [readingSlots]
      split
      · refine List.nodup_cons.mpr ⟨?_, ih (slot + 1)⟩
        intro hmem
        obtain ⟨-, k, hk, -⟩ := mem_readingSlots.mp hmem
        dsimp only at hk
        omega
      · exact ih (slot + 1)

theorem listSlots_ok {block : BlockId} {slot : Nat} {ids : List SignalId}
    {signals signals' : Array (Signal α)} (h : listSlots block slot ids signals = .ok signals') :
    (∀ id ∈ ids, id.index < signals.size) ∧
      signals' = signals.mapIdx fun j s =>
        { s with sinks := s.sinks ++ readingSlots block ⟨j⟩ slot ids } := by
  induction ids generalizing slot signals with
  | nil =>
      cases h
      refine ⟨fun id hid => absurd hid List.not_mem_nil, ?_⟩
      ext j hj hj'
      · simp
      · simp [readingSlots]
  | cons id rest ih =>
      obtain ⟨s, hs, h⟩ := outcome_bind_ok.mp h
      rw [entry_eq_ok] at hs
      have hlt := (Array.getElem?_eq_some_iff.mp hs).1
      obtain ⟨hrest, rfl⟩ := ih h
      rw [Array.size_setIfInBounds] at hrest
      refine ⟨?_, ?_⟩
      · intro x hx
        rcases List.mem_cons.mp hx with rfl | hx
        · exact hlt
        · exact hrest x hx
      · apply Array.ext_getElem?
        intro j
        rw [Array.getElem?_mapIdx, Array.getElem?_mapIdx, Array.getElem?_setIfInBounds]
        by_cases hj : id.index = j
        · subst hj
          rw [if_pos rfl, if_pos hlt, hs, readingSlots, if_pos rfl]
          simp only [Option.map_some, List.append_assoc, List.singleton_append]
        · have hid : id ≠ ⟨j⟩ := fun heq => hj (by rw [heq])
          simp [hj, readingSlots, hid]

/-- What becomes of a block of the draft. -/
structure Resolved [Arithmetic α] (d : Draft α) (b₀ : DraftBlock α) (b : Block α) : Prop where
  name : b.name = b₀.name
  kind : b.kind = b₀.kind
  inputs : d.resolveSlots b₀.name 0 b₀.inputs = .ok b.inputs
  output : b₀.output.mapM (d.resolve b₀.name) = .ok b.output
  value : b.value = b₀.kind.initialValue
  computed : b.computed = none

end Draft

namespace Signal

variable {α : Type}

/-- The signal once a further block has been connected to all of its wires. -/
def joined (s : Signal α) (id : SignalId) (block : BlockId) (b : Block α) : Signal α :=
  { s with
    sinks := s.sinks ++ Draft.readingSlots block id 0 b.inputs
    source := if b.output = some id then some ⟨block, 0⟩ else s.source }

end Signal

namespace Model

variable {α : Type}

/-- The model with a further block, connected to its signals. -/
def joined (m : Model α) (b : Block α) : Model α :=
  { m with
    signals := m.signals.mapIdx fun j (s : Signal α) => s.joined ⟨j⟩ ⟨m.blocks.size⟩ b
    blocks := m.blocks.push b }.enroll ⟨m.blocks.size⟩ b.kind

theorem joined_signal? {m : Model α} {b : Block α} {id : SignalId} :
    (m.joined b).signal? id = (m.signal? id).map fun s => s.joined id ⟨m.blocks.size⟩ b := by
  simp only [joined, signal?, enroll_signals, Array.getElem?_mapIdx]

theorem joined_block? {m : Model α} {b : Block α} {id : BlockId} :
    (m.joined b).block? id = if id.index = m.blocks.size then some b else m.block? id := by
  simp only [joined, block?, enroll_blocks, Array.getElem?_push]

theorem joined_kindOf? {m : Model α} {b : Block α} {id : BlockId} :
    (m.joined b).kindOf? id = if id.index = m.blocks.size then some b.kind else m.kindOf? id := by
  rw [kindOf?, joined_block?]
  split
  · rfl
  · rfl

@[simp] theorem joined_size (m : Model α) (b : Block α) :
    (m.joined b).blocks.size = m.blocks.size + 1 :=
  Array.size_push b

@[simp] theorem joined_signals_size (m : Model α) (b : Block α) :
    (m.joined b).signals.size = m.signals.size :=
  Array.size_mapIdx

theorem Enrolled.joined {m : Model α} (h : m.Enrolled) (b : Block α) : (m.joined b).Enrolled :=
  h.push (joined_size m b) (fun _ => joined_kindOf?) rfl rfl

theorem EdgesAgree.joined_sinks {m : Model α} (h : m.EdgesAgree) {b : Block α} {id : SignalId}
    {s : Signal α} (hs : m.signal? id = some s) (e : Endpoint) :
    e ∈ (s.joined id ⟨m.blocks.size⟩ b).sinks ↔
      ∃ c, (m.joined b).block? e.block = some c ∧ c.inputs[e.slot]? = some id := by
  simp only [Signal.joined, List.mem_append, Draft.mem_readingSlots, joined_block?, h.sinks id s hs e,
    Nat.zero_add]
  constructor
  · rintro (⟨c, hc, hin⟩ | ⟨hblock, k, hk, hin⟩)
    · have hlt := block?_lt hc
      rw [if_neg (Nat.ne_of_lt hlt)]
      exact ⟨c, hc, hin⟩
    · rw [hblock, if_pos rfl, hk]
      exact ⟨b, rfl, hin⟩
  · rintro ⟨c, hc, hin⟩
    split at hc
    · rename_i hblock
      cases hc
      exact .inr ⟨Handle.eq_mk hblock, e.slot, rfl, hin⟩
    · exact .inl ⟨c, hc, hin⟩

theorem EdgesAgree.joined_source {m : Model α} (h : m.EdgesAgree) {b : Block α}
    (houtput : ∀ s, b.output = some s → ∃ x, m.signal? s = some x ∧ x.source = none) {id : SignalId}
    {s : Signal α} (hs : m.signal? id = some s) (e : Endpoint) :
    (s.joined id ⟨m.blocks.size⟩ b).source = some e ↔
      e.slot = 0 ∧ ∃ c, (m.joined b).block? e.block = some c ∧ c.output = some id := by
  simp only [Signal.joined, joined_block?]
  by_cases hb : b.output = some id
  · obtain ⟨x, hx, hnone⟩ := houtput id hb
    cases hs.symm.trans hx
    rw [if_pos hb]
    constructor
    · rintro ⟨⟩
      exact ⟨rfl, b, by rw [if_pos rfl], hb⟩
    · rintro ⟨hslot, c, hc, hout⟩
      split at hc
      · rename_i hblock
        cases e
        cases hslot
        rw [← Handle.eq_mk hblock]
      · have hsource := (h.source id s hs e).mpr ⟨hslot, c, hc, hout⟩
        rw [hnone] at hsource
        cases hsource
  · rw [if_neg hb, h.source id s hs e]
    constructor
    · rintro ⟨hslot, c, hc, hout⟩
      have hlt := block?_lt hc
      exact ⟨hslot, c, by rw [if_neg (Nat.ne_of_lt hlt)]; exact hc, hout⟩
    · rintro ⟨hslot, c, hc, hout⟩
      split at hc
      · cases hc
        exact absurd hout hb
      · exact ⟨hslot, c, hc, hout⟩

/-- Connecting a block whose signals exist, and whose output has no producer yet. -/
theorem EdgesAgree.joined {m : Model α} (h : m.EdgesAgree) {b : Block α}
    (hinputs : ∀ s ∈ b.inputs, s.index < m.signals.size)
    (houtput : ∀ s, b.output = some s → ∃ x, m.signal? s = some x ∧ x.source = none) :
    (m.joined b).EdgesAgree := by
  have hsize := joined_signals_size m b
  have hsignal : ∀ id s, (m.joined b).signal? id = some s →
      ∃ s₀, m.signal? id = some s₀ ∧ s₀.joined id ⟨m.blocks.size⟩ b = s := by
    intro id s hs
    rw [joined_signal?] at hs
    exact Option.map_eq_some_iff.mp hs
  constructor
  · intro id c hc s hs
    rw [hsize]
    rw [joined_block?] at hc
    split at hc
    · cases hc
      exact hinputs s hs
    · exact h.inputs id c hc s hs
  · intro id c hc s hs
    rw [hsize]
    rw [joined_block?] at hc
    split at hc
    · cases hc
      obtain ⟨x, hx, -⟩ := houtput s hs
      exact signal?_lt hx
    · exact h.outputs id c hc s hs
  · intro id s hs
    obtain ⟨s₀, hs₀, rfl⟩ := hsignal id s hs
    exact h.joined_sinks hs₀
  · intro id s hs
    obtain ⟨s₀, hs₀, rfl⟩ := hsignal id s hs
    refine List.nodup_append.mpr ⟨h.nodup id s₀ hs₀, Draft.readingSlots_nodup _ _ _ _, ?_⟩
    rintro e he _ he' rfl
    obtain ⟨c, hc, -⟩ := (h.sinks id s₀ hs₀ e).mp he
    have hlt := block?_lt hc
    rw [(Draft.mem_readingSlots.mp he').1] at hlt
    exact Nat.lt_irrefl _ hlt
  · intro id s hs
    obtain ⟨s₀, hs₀, rfl⟩ := hsignal id s hs
    exact h.joined_source houtput hs₀

end Model

namespace Draft

variable {α : Type}

theorem claimOutput_ok {m m' : Model α} {block : BlockId} {name : String} {id : SignalId}
    (h : claimOutput m block name id = .ok m') :
    ∃ s, m.signal? id = some s ∧ s.source = none ∧
      m' = { m with
        signals := m.signals.setIfInBounds id.index { s with source := some ⟨block, 0⟩ } } := by
  obtain ⟨s, hs, h⟩ := outcome_bind_ok.mp h
  rw [entry_eq_ok] at hs
  split at h
  · obtain ⟨b, -, h⟩ := outcome_bind_ok.mp h
    cases h
  · cases h
    exact ⟨s, hs, ‹_›, rfl⟩

variable [Arithmetic α] {d : Draft α}

theorem wireBlock_ok {m m' : Model α} {b₀ : DraftBlock α} (h : d.wireBlock m b₀ = .ok m') :
    ∃ b, d.Resolved b₀ b ∧ (∀ s ∈ b.inputs, s.index < m.signals.size) ∧
      (∀ s, b.output = some s → ∃ x, m.signal? s = some x ∧ x.source = none) ∧
      m' = m.joined b := by
  obtain ⟨inputs, hinputs, h⟩ := outcome_bind_ok.mp h
  obtain ⟨signals, hsignals, h⟩ := outcome_bind_ok.mp h
  obtain ⟨output, houtput, h⟩ := outcome_bind_ok.mp h
  obtain ⟨hbound, rfl⟩ := listSlots_ok hsignals
  refine ⟨{ name := b₀.name, kind := b₀.kind, inputs, output, value := b₀.kind.initialValue },
    ⟨rfl, rfl, hinputs, houtput, rfl, rfl⟩, hbound, ?_⟩
  cases output with
  | none =>
      cases h
      refine ⟨fun s hs => (by cases hs), ?_⟩
      simp [Model.joined, Signal.joined]
  | some id =>
      obtain ⟨m₁, hm₁, h⟩ := outcome_bind_ok.mp h
      cases h
      obtain ⟨x, hx, hnone, rfl⟩ := claimOutput_ok hm₁
      simp only [Model.signal?, Array.getElem?_mapIdx] at hx
      obtain ⟨x₀, hx₀, rfl⟩ := Option.map_eq_some_iff.mp hx
      refine ⟨?_, ?_⟩
      · rintro s ⟨⟩
        exact ⟨x₀, hx₀, hnone⟩
      · have hlt := (Array.getElem?_eq_some_iff.mp hx₀).1
        unfold Model.joined
        congr 2
        apply Array.ext_getElem?
        intro j
        rw [Array.getElem?_setIfInBounds, Array.getElem?_mapIdx, Array.getElem?_mapIdx]
        by_cases hj : id.index = j
        · subst hj
          rw [if_pos rfl, if_pos (by simpa using hlt), hx₀]
          simp only [Option.map_some, Signal.joined, if_pos]
        · rw [if_neg hj]
          have hid : some id ≠ some (⟨j⟩ : SignalId) := by
            intro heq
            cases heq
            exact hj rfl
          simp only [Signal.joined, if_neg hid]

/-- The model has been made of the blocks `done`, which resolve to its own. -/
structure Wired (d : Draft α) (done : List (DraftBlock α)) (m : Model α) : Prop where
  edges : m.EdgesAgree
  size : m.blocks.size = done.length
  blocks : ∀ (i : Nat) (b₀ : DraftBlock α), done[i]? = some b₀ →
    ∃ b, m.blocks[i]? = some b ∧ d.Resolved b₀ b
  signalCount : m.signals.size = d.signals.size
  signals : ∀ (j : Nat) (s : Signal α), m.signals[j]? = some s → d.signals[j]? = some s.unwired
  enrolled : m.Enrolled
  fresh : m.breakpoints = d.breakpoints ∧ m.tables = d.tables ∧ m.order = none ∧
    m.epoch = Epoch.zero ∧ m.results = []

theorem Wired.signal? {done : List (DraftBlock α)} {m : Model α} (h : d.Wired done m) {id : SignalId}
    {s : Signal α} (hs : m.signal? id = some s) : d.signals[id.index]? = some s.unwired :=
  h.signals id.index s hs

theorem Wired.start (hd : d.Sound) :
    d.Wired [] { name := d.name, signals := d.signals, breakpoints := d.breakpoints,
                 tables := d.tables } := by
  constructor
  · constructor
    · intro id b hb
      simp [Model.block?] at hb
    · intro id b hb
      simp [Model.block?] at hb
    · intro id s hs e
      rw [(hd.unwired id.index s hs).2]
      simp [Model.block?]
    · intro id s hs
      rw [(hd.unwired id.index s hs).2]
      exact List.nodup_nil
    · intro id s hs e
      rw [(hd.unwired id.index s hs).1]
      simp [Model.block?]
  · rfl
  · intro i b₀ hb₀
    cases hb₀
  · rfl
  · intro j s hs
    obtain ⟨hsource, hsinks⟩ := hd.unwired j s hs
    change d.signals[j]? = some s at hs
    rw [hs]
    cases s
    cases hsource
    cases hsinks
    rfl
  · exact ⟨rfl, rfl⟩
  · exact ⟨rfl, rfl, rfl, rfl, rfl⟩

theorem Wired.step {done : List (DraftBlock α)} {m m' : Model α} {b₀ : DraftBlock α}
    (h : d.Wired done m) (hstep : d.wireBlock m b₀ = .ok m') : d.Wired (done ++ [b₀]) m' := by
  obtain ⟨b, hb, hinputs, houtput, rfl⟩ := wireBlock_ok hstep
  constructor
  · exact h.edges.joined hinputs houtput
  · rw [Model.joined_size, h.size, List.length_append, List.length_singleton]
  · intro i c₀ hc₀
    have hget : (m.joined b).block? ⟨i⟩ = _ := Model.joined_block?
    simp only [Model.block?, h.size] at hget
    rw [hget]
    rw [List.getElem?_append] at hc₀
    split at hc₀
    · rename_i hlt
      rw [if_neg (Nat.ne_of_lt hlt)]
      exact h.blocks i c₀ hc₀
    · rename_i hge
      obtain ⟨hi, hc⟩ := List.getElem?_eq_some_iff.mp hc₀
      rw [List.length_singleton] at hi
      have hlast : i = done.length := by omega
      rw [if_pos hlast]
      rw [List.getElem_singleton] at hc
      exact ⟨b, rfl, hc ▸ hb⟩
  · rw [Model.joined_signals_size, h.signalCount]
  · intro j s hs
    have hget : (m.joined b).signal? ⟨j⟩ = _ := Model.joined_signal?
    simp only [Model.signal?] at hget
    rw [hget] at hs
    obtain ⟨s₀, hs₀, rfl⟩ := Option.map_eq_some_iff.mp hs
    exact h.signals j s₀ hs₀
  · exact h.enrolled.joined b
  · exact h.fresh

theorem Wired.foldlM {done rest : List (DraftBlock α)} {m m' : Model α} (h : d.Wired done m)
    (hrest : rest.foldlM d.wireBlock m = .ok m') : d.Wired (done ++ rest) m' := by
  induction rest generalizing done m with
  | nil =>
      cases hrest
      rwa [List.append_nil]
  | cons b₀ rest ih =>
      rw [List.foldlM_cons] at hrest
      obtain ⟨m₁, hm₁, hrest⟩ := outcome_bind_ok.mp hrest
      rw [List.append_cons]
      exact ih (h.step hm₁) hrest

theorem wire_ok (hd : d.Sound) {m : Model α} (h : d.wire = .ok m) : d.Wired d.blocks.toList m :=
  (Wired.start hd).foldlM h

end Draft

end BlockDiagram
