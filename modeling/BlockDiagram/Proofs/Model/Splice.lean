import BlockDiagram.Proofs.Model.Wiring
/-! Splicing: a limiter is put into a signal by a further block and a second signal, which takes over
the consumers of the first. -/

namespace BlockDiagram

open Call

variable {α : Type}

namespace Block

/-- The slots that read one signal now read another. -/
def redirect (b : Block α) (old new : SignalId) : Block α :=
  { b with inputs := b.inputs.map fun s => if s = old then new else s }

theorem redirect_slot {b : Block α} {old new : SignalId} {slot : Nat} :
    (b.redirect old new).inputs[slot]? =
      b.inputs[slot]?.map fun s => if s = old then new else s :=
  List.getElem?_map

end Block

namespace Signal

variable [Scalar α]

/-- The limiter between the two halves of a signal. -/
def limiter (s : Signal α) (id limited : SignalId) : Block α :=
  { name := s.varId ++ "_limiter"
    kind := .limiterBetween s.lower s.upper
    inputs := [id]
    output := some limited
    value := (BlockKind.limiterBetween s.lower s.upper).initialValue }

end Signal

namespace Model

/-- The model with a further block under a fresh name. -/
def attach (m : Model α) (b : Block α) : Model α :=
  { m with order := none }.joined { b with name := freshName m.blockNames b.name }

/-- The model with the consumers of a signal moved to a new one that takes over its variable ID.
Nothing produces the new signal yet, and nothing consumes the old one. -/
def split (m : Model α) (id : SignalId) (s : Signal α) : Model α :=
  let limiter : BlockId := ⟨m.blocks.size⟩
  let before := s.beforeLimiter (freshName m.varIds (s.varId ++ "_unlim")) limiter
  { m with
    signals := (m.signals.setIfInBounds id.index { before with sinks := [] }).push
      { s.afterLimiter limiter with source := none }
    blocks := m.blocks.map fun b => b.redirect id ⟨m.signals.size⟩ }

/-- The model with a limiter put into a signal. -/
def splice [Scalar α] (m : Model α) (id : SignalId) (s : Signal α) : Model α :=
  (m.split id s).attach (s.limiter id ⟨m.signals.size⟩)

section Attach

variable {m : Model α} {b : Block α}

theorem attach_signal? {id : SignalId} :
    (m.attach b).signal? id = (m.signal? id).map fun s => s.joined id ⟨m.blocks.size⟩ b :=
  joined_signal?

theorem attach_block? {id : BlockId} :
    (m.attach b).block? id =
      if id.index = m.blocks.size then some { b with name := freshName m.blockNames b.name }
      else m.block? id :=
  joined_block?

@[simp] theorem attach_size (m : Model α) (b : Block α) :
    (m.attach b).blocks.size = m.blocks.size + 1 :=
  joined_size _ _

@[simp] theorem attach_signals_size (m : Model α) (b : Block α) :
    (m.attach b).signals.size = m.signals.size :=
  joined_signals_size _ _

theorem attach_signal?_of_some {id : SignalId} {s : Signal α} (hs : m.signal? id = some s) :
    (m.attach b).signal? id = some (s.joined id ⟨m.blocks.size⟩ b) := by
  rw [attach_signal?, hs]
  rfl

theorem attach_block?_of_some {id : BlockId} {c : Block α} (h : m.block? id = some c) :
    (m.attach b).block? id = some c := by
  rw [attach_block?, if_neg (Nat.ne_of_lt (block?_lt h)), h]

theorem Enrolled.attach (h : m.Enrolled) (b : Block α) : (m.attach b).Enrolled :=
  Enrolled.joined (m := { m with order := none }) ⟨h.inputs, h.outputs⟩ _

theorem EdgesAgree.attach (h : m.EdgesAgree) (hinputs : ∀ s ∈ b.inputs, s.index < m.signals.size)
    (houtput : ∀ s, b.output = some s → ∃ x, m.signal? s = some x ∧ x.source = none) :
    (m.attach b).EdgesAgree :=
  EdgesAgree.joined (m := { m with order := none })
    ⟨h.inputs, h.outputs, h.sinks, h.nodup, h.source⟩ hinputs houtput

end Attach

section Split

variable {m : Model α} {id : SignalId} {s : Signal α}

theorem split_block? {i : BlockId} :
    (m.split id s).block? i = (m.block? i).map fun b => b.redirect id ⟨m.signals.size⟩ := by
  simp only [split, block?, Array.getElem?_map]

theorem split_kindOf? {i : BlockId} : (m.split id s).kindOf? i = m.kindOf? i := by
  rw [kindOf?, split_block?, kindOf?]
  cases m.block? i with
  | none => rfl
  | some b => rfl

theorem split_blockNames : (m.split id s).blockNames = m.blockNames := by
  simp [split, blockNames, Block.redirect, Function.comp_def]

@[simp] theorem split_size : (m.split id s).blocks.size = m.blocks.size := by
  simp [split]

@[simp] theorem split_signals_size : (m.split id s).signals.size = m.signals.size + 1 := by
  simp [split]

theorem split_signal?_old (hid : id.index < m.signals.size) :
    (m.split id s).signal? id = some { s.beforeLimiter
      (freshName m.varIds (s.varId ++ "_unlim")) ⟨m.blocks.size⟩ with sinks := [] } := by
  simp [split, signal?, Array.getElem?_push, hid, Nat.ne_of_lt hid]

theorem split_signal?_new :
    (m.split id s).signal? ⟨m.signals.size⟩ =
      some { s.afterLimiter ⟨m.blocks.size⟩ with source := none } := by
  rw [signal?, split, Array.getElem?_push, if_pos Array.size_setIfInBounds.symm]

theorem split_signal?_other {j : SignalId} (hj : j ≠ id) (hsize : j.index ≠ m.signals.size) :
    (m.split id s).signal? j = m.signal? j := by
  have hne : id.index ≠ j.index := fun h => hj (Handle.eq_mk (h.symm ▸ rfl))
  simp [split, signal?, Array.getElem?_push, hsize, hne]

theorem Enrolled.split (h : m.Enrolled) : (m.split id s).Enrolled := by
  constructor
  · rw [blockIds, split_size]
    simp only [split_kindOf?]
    exact h.inputs
  · rw [blockIds, split_size]
    simp only [split_kindOf?]
    exact h.outputs

/-- What a slot reads after the split is what it read before, the old signal replaced by the new. -/
theorem split_reads {e : Endpoint} {j : SignalId} :
    (∃ b, (m.split id s).block? e.block = some b ∧ b.inputs[e.slot]? = some j) ↔
      ∃ b, m.block? e.block = some b ∧
        ∃ x, b.inputs[e.slot]? = some x ∧ (if x = id then ⟨m.signals.size⟩ else x) = j := by
  rw [split_block?]
  constructor
  · rintro ⟨b', hb', hin⟩
    obtain ⟨b, hb, rfl⟩ := Option.map_eq_some_iff.mp hb'
    rw [Block.redirect_slot] at hin
    exact ⟨b, hb, Option.map_eq_some_iff.mp hin⟩
  · rintro ⟨b, hb, hin⟩
    refine ⟨b.redirect id ⟨m.signals.size⟩, by rw [hb]; rfl, ?_⟩
    rw [Block.redirect_slot]
    exact Option.map_eq_some_iff.mpr hin

theorem split_outputs {i : BlockId} {j : SignalId} :
    (∃ b, (m.split id s).block? i = some b ∧ b.output = some j) ↔
      ∃ b, m.block? i = some b ∧ b.output = some j := by
  rw [split_block?]
  constructor
  · rintro ⟨b', hb', hout⟩
    obtain ⟨b, hb, rfl⟩ := Option.map_eq_some_iff.mp hb'
    exact ⟨b, hb, hout⟩
  · rintro ⟨b, hb, hout⟩
    exact ⟨b.redirect id ⟨m.signals.size⟩, by rw [hb]; rfl, hout⟩

theorem split_signal_cases (hs : m.signal? id = some s) {j : SignalId} {x : Signal α}
    (hx : (m.split id s).signal? j = some x) :
    (j = id ∧ x = { s.beforeLimiter (freshName m.varIds (s.varId ++ "_unlim")) ⟨m.blocks.size⟩ with
        sinks := [] }) ∨
      (j = ⟨m.signals.size⟩ ∧ x = { s.afterLimiter ⟨m.blocks.size⟩ with source := none }) ∨
      (j ≠ id ∧ j.index < m.signals.size ∧ m.signal? j = some x) := by
  by_cases hj : j = id
  · subst hj
    rw [split_signal?_old (signal?_lt hs)] at hx
    exact .inl ⟨rfl, (Option.some.inj hx).symm⟩
  · by_cases hnew : j.index = m.signals.size
    · obtain rfl := Handle.eq_mk hnew
      rw [split_signal?_new] at hx
      exact .inr (.inl ⟨rfl, (Option.some.inj hx).symm⟩)
    · rw [split_signal?_other hj hnew] at hx
      exact .inr (.inr ⟨hj, signal?_lt hx, hx⟩)

theorem EdgesAgree.split (h : m.EdgesAgree) (hs : m.signal? id = some s) :
    (m.split id s).EdgesAgree := by
  have hid := signal?_lt hs
  have hold : ∀ {e : Endpoint} {b : Block α} {x : SignalId}, m.block? e.block = some b →
      b.inputs[e.slot]? = some x → x.index < m.signals.size :=
    fun hb hx => h.inputs _ _ hb _ (List.mem_of_getElem? hx)
  constructor
  · intro i b' hb' x hx
    rw [split_block?] at hb'
    obtain ⟨b, hb, rfl⟩ := Option.map_eq_some_iff.mp hb'
    obtain ⟨y, hy, rfl⟩ := List.mem_map.mp hx
    have hlt := h.inputs i b hb y hy
    rw [split_signals_size]
    split
    · exact Nat.lt_succ_self _
    · exact Nat.lt_succ_of_lt hlt
  · intro i b' hb' x hx
    rw [split_block?] at hb'
    obtain ⟨b, hb, rfl⟩ := Option.map_eq_some_iff.mp hb'
    rw [split_signals_size]
    exact Nat.lt_succ_of_lt (h.outputs i b hb x hx)
  · intro j x hx e
    rw [split_reads]
    rcases split_signal_cases hs hx with ⟨rfl, rfl⟩ | ⟨rfl, rfl⟩ | ⟨hj, hlt, hx⟩
    · constructor
      · intro he
        cases he
      · rintro ⟨b, hb, y, hy, hyj⟩
        split at hyj
        · rw [← hyj] at hid
          exact absurd hid (Nat.lt_irrefl _)
        · exact absurd hyj ‹_›
    · rw [show ({ s.afterLimiter ⟨m.blocks.size⟩ with source := none } : Signal α).sinks = s.sinks
        from rfl, h.sinks id s hs e]
      constructor
      · rintro ⟨b, hb, hin⟩
        exact ⟨b, hb, id, hin, if_pos rfl⟩
      · rintro ⟨b, hb, y, hy, hyj⟩
        split at hyj
        · rename_i hyid
          exact ⟨b, hb, hyid ▸ hy⟩
        · have hlt := hold hb hy
          rw [hyj] at hlt
          exact absurd hlt (Nat.lt_irrefl _)
    · rw [h.sinks j x hx e]
      constructor
      · rintro ⟨b, hb, hin⟩
        exact ⟨b, hb, j, hin, if_neg hj⟩
      · rintro ⟨b, hb, y, hy, hyj⟩
        split at hyj
        · rw [← hyj] at hlt
          exact absurd hlt (Nat.lt_irrefl _)
        · exact ⟨b, hb, hyj ▸ hy⟩
  · intro j x hx
    rcases split_signal_cases hs hx with ⟨-, rfl⟩ | ⟨-, rfl⟩ | ⟨-, -, hx⟩
    · exact List.nodup_nil
    · exact h.nodup id s hs
    · exact h.nodup j x hx
  · intro j x hx e
    rw [split_outputs]
    rcases split_signal_cases hs hx with ⟨rfl, rfl⟩ | ⟨rfl, rfl⟩ | ⟨-, -, hx⟩
    · exact h.source j s hs e
    · constructor
      · intro he
        cases he
      · rintro ⟨-, b, hb, hout⟩
        exact absurd (h.outputs e.block b hb _ hout) (Nat.lt_irrefl _)
    · exact h.source j x hx e

theorem EdgesAgree.splice [Scalar α] (h : m.EdgesAgree) (hs : m.signal? id = some s) :
    (m.splice id s).EdgesAgree := by
  refine (h.split hs).attach ?_ ?_
  · intro x hx
    rw [List.mem_singleton.mp hx, split_signals_size]
    exact Nat.lt_succ_of_lt (signal?_lt hs)
  · rintro x ⟨⟩
    exact ⟨_, split_signal?_new, rfl⟩

variable [Scalar α]

theorem splice_size : (m.splice id s).blocks.size = m.blocks.size + 1 := by
  rw [splice, attach_size, split_size]

theorem splice_signals_size : (m.splice id s).signals.size = m.signals.size + 1 := by
  rw [splice, attach_signals_size, split_signals_size]

theorem splice_block? {i : BlockId} :
    (m.splice id s).block? i =
      if i.index = m.blocks.size then
        some { s.limiter id ⟨m.signals.size⟩ with
          name := freshName m.blockNames (s.limiter id ⟨m.signals.size⟩).name }
      else (m.block? i).map fun b => b.redirect id ⟨m.signals.size⟩ := by
  rw [splice, attach_block?, split_size, split_block?, split_blockNames]

theorem splice_signals (hs : m.signal? id = some s) :
    (m.splice id s).signals =
      (m.signals.setIfInBounds id.index
        (s.beforeLimiter (freshName m.varIds (s.varId ++ "_unlim")) ⟨m.blocks.size⟩)).push
        (s.afterLimiter ⟨m.blocks.size⟩) := by
  have hid := signal?_lt hs
  have hget : ∀ j : SignalId, (m.splice id s).signal? j =
      ((m.signals.setIfInBounds id.index
        (s.beforeLimiter (freshName m.varIds (s.varId ++ "_unlim")) ⟨m.blocks.size⟩)).push
        (s.afterLimiter ⟨m.blocks.size⟩))[j.index]? := by
    intro j
    rw [splice, attach_signal?, split_size, Array.getElem?_push, Array.size_setIfInBounds,
      Array.getElem?_setIfInBounds]
    by_cases hnew : j.index = m.signals.size
    · obtain rfl := Handle.eq_mk hnew
      rw [split_signal?_new, if_pos rfl, Option.map_some]
      have hne : id ≠ ⟨m.signals.size⟩ := fun h => by rw [h] at hid; exact Nat.lt_irrefl _ hid
      simp [Signal.joined, Signal.limiter, Draft.readingSlots, Signal.afterLimiter, hne]
    · rw [if_neg hnew]
      by_cases hj : j = id
      · subst hj
        rw [split_signal?_old hid, if_pos rfl, if_pos hid]
        have hne : (⟨m.signals.size⟩ : SignalId) ≠ j := fun h => hnew (h ▸ rfl)
        simp [Signal.joined, Signal.limiter, Draft.readingSlots, Signal.beforeLimiter, hne]
      · have hold : (⟨m.signals.size⟩ : SignalId) ≠ j := fun h => hnew (h ▸ rfl)
        have hne : id.index ≠ j.index := fun h => hj (Handle.eq_mk h.symm)
        rw [split_signal?_other hj hnew, if_neg hne]
        simp [Signal.joined, Signal.limiter, Draft.readingSlots, hold, Ne.symm hj, signal?]
  apply Array.ext_getElem?
  intro j
  exact hget ⟨j⟩

theorem splice_signal_cases (hs : m.signal? id = some s)
    {j : SignalId} {x : Signal α} (hx : (m.splice id s).signal? j = some x) :
    (j = id ∧
        x = s.beforeLimiter (freshName m.varIds (s.varId ++ "_unlim")) ⟨m.blocks.size⟩) ∨
      (j = ⟨m.signals.size⟩ ∧ x = s.afterLimiter ⟨m.blocks.size⟩) ∨
      (j ≠ id ∧ m.signal? j = some x) := by
  rw [signal?, splice_signals hs, Array.getElem?_push, Array.size_setIfInBounds] at hx
  split at hx
  · exact .inr (.inl ⟨Handle.eq_mk ‹_›, (Option.some.inj hx).symm⟩)
  · rw [Array.getElem?_setIfInBounds] at hx
    split at hx
    · rw [if_pos (signal?_lt hs)] at hx
      exact .inl ⟨Handle.eq_mk (Eq.symm ‹_›), (Option.some.inj hx).symm⟩
    · rename_i hne
      exact .inr (.inr ⟨fun h => hne (congrArg Handle.index h).symm, hx⟩)

theorem splice_signal?_front (hs : m.signal? id = some s) :
    (m.splice id s).signal? id =
      some (s.beforeLimiter (freshName m.varIds (s.varId ++ "_unlim")) ⟨m.blocks.size⟩) := by
  have hlt := signal?_lt hs
  rw [signal?, splice_signals hs, Array.getElem?_push, Array.size_setIfInBounds,
    if_neg (Nat.ne_of_lt hlt), Array.getElem?_setIfInBounds, if_pos rfl, if_pos hlt]

theorem splice_signal?_back (hs : m.signal? id = some s) :
    (m.splice id s).signal? ⟨m.signals.size⟩ = some (s.afterLimiter ⟨m.blocks.size⟩) := by
  rw [signal?, splice_signals hs, Array.getElem?_push, Array.size_setIfInBounds, if_pos rfl]

theorem splice_signal?_of_ne (hs : m.signal? id = some s)
    {j : SignalId} {x : Signal α} (hj : j ≠ id) (hx : m.signal? j = some x) :
    (m.splice id s).signal? j = some x := by
  have hlt := signal?_lt hx
  have hne : id.index ≠ j.index := fun h => hj (Handle.eq_mk h.symm)
  rw [signal?, splice_signals hs, Array.getElem?_push, Array.size_setIfInBounds,
    if_neg (Nat.ne_of_lt hlt), Array.getElem?_setIfInBounds, if_neg hne]
  exact hx

end Split

end Model

end BlockDiagram
