import BlockDiagram.Proofs.Model.Extension
import BlockDiagram.Proofs.Model.Passes
/-! Sound models: their edges agree, their handles are in range, no stamp is from the future, a
cached order lists every block once, and the records of the last cycle carry the labels of the
signals they show. Every call keeps a model sound. -/

namespace BlockDiagram

open Call

variable {α : Type}

namespace Record

/-- What a record shows besides the value. -/
def label (r : Record α) : String × String × String × α × α :=
  (r.name, r.varId, r.units, r.lower, r.upper)

end Record

namespace Signal

/-- The record of a signal with a value. -/
def shown (s : Signal α) (value : α) : Record α where
  name := s.name
  varId := s.varId
  units := s.units
  value := value
  lower := s.lower
  upper := s.upper

end Signal

namespace Model

/-- The records of the last cycle carry the labels of the first outputs. -/
structure Harvested (m : Model α) : Prop where
  length : m.results.length ≤ m.outputs.length
  labels : ∀ (i : Nat) (r : Record α) (id : BlockId), m.results[i]? = some r →
    m.outputs[i]? = some id → ∃ r', m.outputRecord? id = some r' ∧ r'.label = r.label

structure Sound (m : Model α) : Prop where
  edges : m.EdgesAgree
  enrolled : m.Enrolled
  grids : GridsSound m.breakpoints m.tables m.blocks.size
  kinds : ∀ id b, m.block? id = some b → b.kind.InRange m.breakpoints.size m.tables.size
  stamps : ∀ id b e, m.block? id = some b → b.computed = some e → e.cycles ≤ m.epoch.cycles
  order : ∀ l, m.order = some l → l.Perm m.blockIds
  harvested : m.Harvested

section Harvested

variable {m m' : Model α}

theorem outputRecord?_eq_some {id : BlockId} {r : Record α} :
    m.outputRecord? id = some r ↔ ∃ b x s, m.block? id = some b ∧ b.inputs.head? = some x ∧
      m.signal? x = some s ∧ s.shown b.value = r := by
  cases hb : m.block? id with
  | none => simp [outputRecord?, hb]
  | some b =>
      cases hx : b.inputs.head? with
      | none => simp [outputRecord?, hb, hx]
      | some x =>
          cases hs : m.signal? x with
          | none => simp [outputRecord?, record?, hb, hx, hs]
          | some s => simp [outputRecord?, record?, Signal.shown, hb, hx, hs]

/-- More outputs, and outputs that still show the same signals, leave the old records valid. -/
theorem Harvested.of_labels (h : m.Harvested) (hresults : m'.results = m.results)
    (houtputs : m.outputs <+: m'.outputs)
    (hlabels : ∀ id r, m.outputRecord? id = some r →
      ∃ r', m'.outputRecord? id = some r' ∧ r'.label = r.label) : m'.Harvested := by
  constructor
  · rw [hresults]
    exact Nat.le_trans h.length houtputs.length_le
  · intro i r id hr hid
    rw [hresults] at hr
    have hlt : i < m.outputs.length :=
      Nat.lt_of_lt_of_le (List.getElem?_eq_some_iff.mp hr).1 h.length
    have hold : m.outputs[i]? = some id := by
      rw [List.getElem?_eq_getElem hlt, ← List.prefix_iff_getElem?.mp houtputs i hlt, hid]
    obtain ⟨r₁, hr₁, hlabel₁⟩ := h.labels i r id hr hold
    obtain ⟨r₂, hr₂, hlabel₂⟩ := hlabels id r₁ hr₁
    exact ⟨r₂, hr₂, hlabel₂.trans hlabel₁⟩

theorem Harvested.attach (h : m.Harvested) (b : Block α) : (m.attach b).Harvested := by
  refine h.of_labels rfl ?_ ?_
  · change m.outputs <+: if b.kind.isOutput then m.outputs ++ [⟨m.blocks.size⟩] else m.outputs
    split
    · exact List.prefix_append _ _
    · exact List.prefix_refl _
  · intro id r hr
    obtain ⟨c, x, s, hc, hx, hs, rfl⟩ := outputRecord?_eq_some.mp hr
    exact ⟨(s.joined x ⟨m.blocks.size⟩ b).shown c.value, outputRecord?_eq_some.mpr
      ⟨c, x, _, attach_block?_of_some hc, hx, attach_signal?_of_some hs, rfl⟩, rfl⟩

theorem Harvested.split (h : m.Harvested) {id : SignalId} {s : Signal α}
    (hs : m.signal? id = some s) : (m.split id s).Harvested := by
  refine h.of_labels rfl (List.prefix_refl m.outputs) ?_
  intro i r hr
  obtain ⟨c, x, t, hc, hx, ht, rfl⟩ := outputRecord?_eq_some.mp hr
  have hblock : (m.split id s).block? i = some (c.redirect id ⟨m.signals.size⟩) := by
    rw [split_block?, hc]
    rfl
  have hhead : (c.redirect id ⟨m.signals.size⟩).inputs.head? =
      some (if x = id then ⟨m.signals.size⟩ else x) := by
    rw [Block.redirect, List.head?_map, hx]
    rfl
  by_cases hxid : x = id
  · subst hxid
    cases hs.symm.trans ht
    rw [if_pos rfl] at hhead
    exact ⟨_, outputRecord?_eq_some.mpr ⟨_, _, _, hblock, hhead, split_signal?_new, rfl⟩, rfl⟩
  · rw [if_neg hxid] at hhead
    have hother : (m.split id s).signal? x = some t := by
      rw [split_signal?_other hxid (Nat.ne_of_lt (signal?_lt ht)), ht]
    exact ⟨_, outputRecord?_eq_some.mpr ⟨_, _, _, hblock, hhead, hother, rfl⟩, rfl⟩

theorem Harvested.of_bare [Arithmetic α] (h : m.Harvested) (hbare : m'.bare = m.bare)
    (hresults : m'.results = m.results) : m'.Harvested := by
  refine h.of_labels hresults ?_ ?_
  · exact ⟨[], by rw [List.append_nil, outputs_of_bare hbare]⟩
  · intro id r hr
    obtain ⟨c, x, s, hc, hx, hs, rfl⟩ := outputRecord?_eq_some.mp hr
    obtain ⟨c', hc', -, -, hinputs, -⟩ := block_of_bare hbare.symm hc
    exact ⟨s.shown c'.value, outputRecord?_eq_some.mpr
      ⟨c', x, s, hc', by rw [hinputs]; exact hx, by rw [signal?_of_bare hbare]; exact hs, rfl⟩, rfl⟩

end Harvested

namespace Sound

variable {m m' : Model α}

/-- Values, stamps that are not from the future, and a new order of all blocks keep a model sound.
-/
theorem of_bare [Arithmetic α] (h : m.Sound) (hbare : m'.bare = m.bare)
    (hstamps : ∀ id b e, m'.block? id = some b → b.computed = some e → e.cycles ≤ m'.epoch.cycles)
    (horder : ∀ l, m'.order = some l → l.Perm m.blockIds)
    (hresults : m'.results = m.results) : m'.Sound where
  edges := h.edges.of_bare hbare
  enrolled := h.enrolled.of_bare hbare
  grids := by
    rw [breakpoints_of_bare hbare, tables_of_bare hbare, size_of_bare hbare]
    exact h.grids
  kinds := by
    intro id b' hb'
    obtain ⟨b, hb, -, hkind, -⟩ := block_of_bare hbare hb'
    rw [← hkind, breakpoints_of_bare hbare, tables_of_bare hbare]
    exact h.kinds id b hb
  stamps := hstamps
  order := by
    rw [blockIds, size_of_bare hbare]
    exact horder
  harvested := h.harvested.of_bare hbare hresults

theorem attach (h : m.Sound) {b : Block α} (hedges : (m.attach b).EdgesAgree)
    (hkind : b.kind.InRange m.breakpoints.size m.tables.size) (hcomputed : b.computed = none) :
    (m.attach b).Sound where
  edges := hedges
  enrolled := h.enrolled.attach b
  grids := by
    rw [attach_size]
    exact h.grids.mono (Nat.le_succ _)
  kinds := by
    intro id c hc
    rw [attach_block?] at hc
    split at hc
    · cases hc
      exact hkind
    · exact h.kinds id c hc
  stamps := by
    intro id c e hc he
    rw [attach_block?] at hc
    split at hc
    · cases hc
      rw [hcomputed] at he
      cases he
    · exact h.stamps id c e hc he
  order := fun l hl => by cases hl
  harvested := h.harvested.attach b

theorem split (h : m.Sound) {id : SignalId} {s : Signal α} (hs : m.signal? id = some s) :
    (m.split id s).Sound where
  edges := h.edges.split hs
  enrolled := h.enrolled.split
  grids := by
    rw [split_size]
    exact h.grids
  kinds := by
    intro i c hc
    rw [split_block?] at hc
    obtain ⟨c₀, hc₀, rfl⟩ := Option.map_eq_some_iff.mp hc
    exact h.kinds i c₀ hc₀
  stamps := by
    intro i c e hc he
    rw [split_block?] at hc
    obtain ⟨c₀, hc₀, rfl⟩ := Option.map_eq_some_iff.mp hc
    exact h.stamps i c₀ e hc₀ he
  order := by
    rw [blockIds, split_size]
    exact h.order
  harvested := h.harvested.split hs

end Sound

theorem Extends.sound [Scalar α] {m m' : Model α} (h : Extends m m') (hm : m.Sound) : m'.Sound := by
  cases h with
  | @limit id s hs hneed =>
      refine (hm.split hs).attach (hm.edges.splice hs) ?_ rfl
      rw [Signal.limiter, BlockKind.limiterBetween]
      split <;> trivial
  | @feed id s hs hsource =>
      refine hm.attach (hm.edges.feed hs hsource) ?_ ?_
      · unfold Signal.feeder
        split
        · split <;> trivial
        · trivial
      · unfold Signal.feeder
        split
        · split <;> rfl
        · rfl
  | @tap id s hs hneed => exact hm.attach (hm.edges.tap hs) trivial rfl

end Model

end BlockDiagram
