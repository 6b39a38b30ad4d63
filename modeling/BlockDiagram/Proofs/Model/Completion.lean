import BlockDiagram.Proofs.Names
import BlockDiagram.Proofs.Model.Splice
/-! Completion: every call it makes for a signal adds one block, or nothing. -/

namespace BlockDiagram

open Call

variable {α : Type}

namespace Signal

variable [Scalar α]

/-- The block that feeds a signal without producer. -/
def feeder (s : Signal α) (id : SignalId) : Block α :=
  match s.initial with
  | some value =>
    if s.roles.isExternal then
      { name := s.varId ++ "_input", kind := .input, output := some id, value }
    else { name := s.varId ++ "_const", kind := .constant value, output := some id, value }
  | none =>
    { name := s.varId ++ "_input", kind := .input, output := some id,
      value := Arithmetic.ofNat 0 }

theorem feeder_inputs (s : Signal α) (id : SignalId) : (s.feeder id).inputs = [] := by
  unfold feeder
  split
  · split <;> rfl
  · rfl

theorem feeder_output (s : Signal α) (id : SignalId) : (s.feeder id).output = some id := by
  unfold feeder
  split
  · split <;> rfl
  · rfl

/-- The output block of a signal. -/
def tap (s : Signal α) (id : SignalId) : Block α :=
  { name := s.varId ++ "_output", kind := .output, inputs := [id], value := Arithmetic.ofNat 0 }

theorem needsLimiter_unwired (s : Signal α) : s.unwired.needsLimiter = s.needsLimiter := rfl

end Signal

namespace Model

section Run

/-- The block at a position with the listed slots bound to a signal. -/
def rebound (signal : SignalId) (es : List Endpoint) (i : Nat) (b : Block α) : Block α :=
  { b with inputs := b.inputs.mapIdx fun slot s => if ⟨⟨i⟩, slot⟩ ∈ es then signal else s }

theorem rebound_nil {signal : SignalId} {i : Nat} {b : Block α} : rebound signal [] i b = b := by
  have hsame : b.inputs.mapIdx (fun _ s => s) = b.inputs := by
    apply List.ext_getElem?
    intro slot
    rw [List.getElem?_mapIdx, Option.map_id']
  simp only [rebound, List.not_mem_nil, ↓reduceIte, hsame]

theorem rebound_cons_self {signal : SignalId} {e : Endpoint} {es : List Endpoint} {b : Block α} :
    rebound signal (e :: es) e.block.index b =
      rebound signal es e.block.index { b with inputs := b.inputs.set e.slot signal } := by
  simp only [rebound]
  congr 1
  apply List.ext_getElem?
  intro slot
  rw [List.getElem?_mapIdx, List.getElem?_mapIdx, List.getElem?_set]
  by_cases hslot : e.slot = slot
  · subst hslot
    by_cases hlt : e.slot < b.inputs.length
    · simp [hlt]
    · simp [hlt]
  · have hne : (⟨⟨e.block.index⟩, slot⟩ : Endpoint) ≠ e := fun h => hslot (h ▸ rfl)
    simp [hslot, hne]

theorem rebound_cons_of_ne {signal : SignalId} {e : Endpoint} {es : List Endpoint} {i : Nat}
    {b : Block α} (hi : e.block.index ≠ i) :
    rebound signal (e :: es) i b = rebound signal es i b := by
  have hne : ∀ slot, (⟨⟨i⟩, slot⟩ : Endpoint) ≠ e := fun slot h => hi (h ▸ rfl)
  simp [rebound, hne]

theorem rebind_run {m : Model α} {signal : SignalId} {e : Endpoint} {b : Block α}
    (hb : m.block? e.block = some b) (hslot : e.slot < b.inputs.length) :
    (rebind signal e).run m = .ok () { m with
      blocks :=
        m.blocks.setIfInBounds e.block.index { b with inputs := b.inputs.set e.slot signal } } := by
  have hentry : (entry m.blocks e.block.index : Except (ModelError α) (Block α)) = .ok b :=
    entry_eq_ok.mpr hb
  simp [rebind, hentry, hslot]

theorem rebindAll_run {m : Model α} {signal : SignalId} {es : List Endpoint}
    (hes : ∀ e ∈ es, ∃ b, m.block? e.block = some b ∧ e.slot < b.inputs.length) :
    (rebindAll signal es).run m = .ok () { m with
      blocks := m.blocks.mapIdx fun i b => rebound signal es i b } := by
  induction es generalizing m with
  | nil =>
      have hid : (m.blocks.mapIdx fun i b => rebound signal [] i b) = m.blocks := by
        apply Array.ext_getElem?
        intro i
        rw [Array.getElem?_mapIdx]
        cases m.blocks[i]? with
        | none => rfl
        | some b => rw [Option.map_some, rebound_nil]
      rw [hid]
      rfl
  | cons e es ih =>
      obtain ⟨b, hb, hslot⟩ := hes e List.mem_cons_self
      have hlt := block?_lt hb
      rw [rebindAll, EStateM.run_bind, rebind_run hb hslot]
      dsimp only
      rw [ih]
      · congr 2
        apply Array.ext_getElem?
        intro i
        rw [Array.getElem?_mapIdx, Array.getElem?_mapIdx, Array.getElem?_setIfInBounds]
        by_cases hi : e.block.index = i
        · subst hi
          rw [if_pos rfl, if_pos hlt, show m.blocks[e.block.index]? = some b from hb]
          rw [Option.map_some, Option.map_some, rebound_cons_self]
        · rw [if_neg hi]
          simp only [rebound_cons_of_ne hi]
      · intro e' he'
        obtain ⟨b', hb', hslot'⟩ := hes e' (List.mem_cons_of_mem e he')
        simp only [block?, Array.getElem?_setIfInBounds]
        by_cases heq : e.block.index = e'.block.index
        · rw [if_pos heq, if_pos hlt]
          refine ⟨_, rfl, ?_⟩
          rw [block?, ← heq] at hb'
          have hsame : b = b' := Option.some.inj (hb.symm.trans hb')
          rw [List.length_set, hsame]
          exact hslot'
        · rw [if_neg heq]
          exact ⟨b', hb', hslot'⟩

variable {m : Model α} {id : SignalId} {s : Signal α}

theorem rebound_sinks (h : m.EdgesAgree) (hs : m.signal? id = some s) {new : SignalId} {i : Nat}
    {b : Block α} (hb : m.block? ⟨i⟩ = some b) : rebound new s.sinks i b = b.redirect id new := by
  have hslots : b.inputs.mapIdx (fun slot x => if ⟨⟨i⟩, slot⟩ ∈ s.sinks then new else x) =
      b.inputs.map fun x => if x = id then new else x := by
    apply List.ext_getElem?
    intro slot
    rw [List.getElem?_mapIdx, List.getElem?_map]
    cases hx : b.inputs[slot]? with
    | none => rfl
    | some x =>
        have hmem : (⟨⟨i⟩, slot⟩ : Endpoint) ∈ s.sinks ↔ x = id := by
          rw [h.sinks id s hs]
          constructor
          · rintro ⟨c, hc, hin⟩
            cases hb.symm.trans hc
            exact Option.some.inj (hx.symm.trans hin)
          · rintro rfl
            exact ⟨b, hb, hx⟩
        simp only [Option.map_some, hmem]
  rw [rebound, hslots, Block.redirect]

theorem rebound_last (h : m.EdgesAgree) (hs : m.signal? id = some s) {new : SignalId}
    {b : Block α} : rebound new s.sinks m.blocks.size b = b := by
  have hfree : ∀ slot, (⟨⟨m.blocks.size⟩, slot⟩ : Endpoint) ∉ s.sinks := by
    intro slot hin
    obtain ⟨c, hc, -⟩ := (h.sinks id s hs _).mp hin
    exact Nat.lt_irrefl _ (block?_lt hc)
  have hnil : rebound new [] m.blocks.size b = b := rebound_nil
  simp only [rebound, List.not_mem_nil, ↓reduceIte] at hnil
  simp only [rebound, hfree, ↓reduceIte, hnil]

variable [Scalar α]

theorem limitSignal_run (h : m.EdgesAgree) (hs : m.signal? id = some s) :
    (limitSignal id).run m = .ok () (m.splice id s) := by
  have hentry : (entry m.signals id.index : Except (ModelError α) (Signal α)) = .ok s :=
    entry_eq_ok.mpr hs
  simp only [limitSignal, EStateM.run_bind, EStateM.run_get, run_lift, hentry, EStateM.run_set]
  rw [rebindAll_run]
  · have hblocks : ∀ b : Block α,
        (m.blocks.push b).mapIdx (rebound ⟨m.signals.size⟩ s.sinks) =
          (m.blocks.map fun b => b.redirect id ⟨m.signals.size⟩).push b := by
      intro b
      apply Array.ext_getElem?
      intro i
      rw [Array.getElem?_mapIdx, Array.getElem?_push, Array.getElem?_push, Array.size_map,
        Array.getElem?_map]
      split
      · rename_i hi
        rw [hi, Option.map_some, rebound_last h hs]
      · cases hc : m.blocks[i]? with
        | none => rfl
        | some c => rw [Option.map_some, Option.map_some, rebound_sinks h hs hc]
    refine congrArg (EStateM.Result.ok ()) ?_
    have hsignals := splice_signals hs
    simp only [splice, attach, joined, enroll] at hsignals
    simp only [splice, attach, joined, enroll, addBlock, hsignals, hblocks]
    rw [split_size, split_blockNames]
    rfl
  · intro e he
    obtain ⟨b, hb, hin⟩ := (h.sinks id s hs e).mp he
    refine ⟨b, ?_, (List.getElem?_eq_some_iff.mp hin).1⟩
    simp only [addBlock, block?, enroll_blocks, Array.getElem?_push]
    rw [if_neg (Nat.ne_of_lt (block?_lt hb))]
    exact hb

omit [Scalar α] in
/-- Where a block touches one signal only, attaching it sets that signal. -/
theorem addBlock_eq_attach (hs : m.signal? id = some s) {b : Block α}
    (hb : ∀ (j : SignalId) (x : Signal α), j ≠ id → x.joined j ⟨m.blocks.size⟩ b = x) :
    ({ m with
      signals := m.signals.setIfInBounds id.index (s.joined id ⟨m.blocks.size⟩ b) } :
      Model α).addBlock b = m.attach b := by
  have hsignals : m.signals.setIfInBounds id.index (s.joined id ⟨m.blocks.size⟩ b) =
      m.signals.mapIdx fun j x => x.joined ⟨j⟩ ⟨m.blocks.size⟩ b := by
    apply Array.ext_getElem?
    intro j
    rw [Array.getElem?_setIfInBounds, Array.getElem?_mapIdx]
    by_cases hj : id.index = j
    · subst hj
      rw [if_pos rfl, if_pos (signal?_lt hs), show m.signals[id.index]? = some s from hs]
      rfl
    · rw [if_neg hj]
      have hne : (⟨j⟩ : SignalId) ≠ id := fun h => hj (h ▸ rfl)
      simp [hb ⟨j⟩ _ hne]
  simp only [hsignals, addBlock, attach, joined]
  rfl

theorem feedSignal_run (hs : m.signal? id = some s) :
    (feedSignal id).run m =
      .ok () (if s.source.isSome then m else m.attach (s.feeder id)) := by
  have hentry : (entry m.signals id.index : Except (ModelError α) (Signal α)) = .ok s :=
    entry_eq_ok.mpr hs
  have hother : ∀ (j : SignalId) (x : Signal α), j ≠ id →
      x.joined j ⟨m.blocks.size⟩ (s.feeder id) = x := by
    intro j x hj
    rw [Signal.joined, s.feeder_inputs, s.feeder_output, if_neg (Ne.symm (by simpa using hj))]
    simp [Draft.readingSlots]
  simp only [feedSignal, EStateM.run_bind, EStateM.run_get, run_lift, hentry]
  by_cases hsource : s.source.isSome
  · simp [hsource]
  · have hself : s.joined id ⟨m.blocks.size⟩ (s.feeder id) =
        { s with source := some ⟨⟨m.blocks.size⟩, 0⟩ } := by
      rw [Signal.joined, s.feeder_inputs, s.feeder_output, if_pos rfl]
      simp [Draft.readingSlots]
    rw [← addBlock_eq_attach hs hother, hself]
    simp only [hsource, Bool.false_eq_true, ↓reduceIte]
    unfold Signal.feeder
    cases hinitial : s.initial with
    | none => rfl
    | some value => cases s.roles.isExternal <;> simp

/-- Some consumer of the signal is an output block. -/
def hasTap (m : Model α) (s : Signal α) : Bool :=
  s.sinks.any fun e => (m.kindOf? e.block).any BlockKind.isOutput

/-- The signal has no output block, and either no consumer at all or the role of an output. -/
def needsTap (m : Model α) (s : Signal α) : Bool :=
  !m.hasTap s && (s.sinks.isEmpty || s.roles.output)

omit [Scalar α] in
theorem isTapped_eq {es : List Endpoint} (hes : ∀ e ∈ es, ∃ b, m.block? e.block = some b) :
    m.isTapped es = .ok (es.any fun e => (m.kindOf? e.block).any BlockKind.isOutput) := by
  obtain ⟨bs, hbs, hany⟩ : ∃ bs : List (Block α),
      List.Forall₂ (fun (e : Endpoint) b =>
          (entry m.blocks e.block.index : Except (ModelError α) (Block α)) = .ok b) es bs ∧
        (bs.any fun b => b.kind.isOutput) =
          es.any fun e => (m.kindOf? e.block).any BlockKind.isOutput := by
    induction es with
    | nil => exact ⟨[], .nil, rfl⟩
    | cons e es ih =>
        obtain ⟨b, hb⟩ := hes e List.mem_cons_self
        obtain ⟨bs, hbs, hany⟩ := ih fun e' he' => hes e' (List.mem_cons_of_mem e he')
        refine ⟨b :: bs, .cons (entry_eq_ok.mpr hb) hbs, ?_⟩
        rw [List.any_cons, List.any_cons, hany, kindOf?, hb]
        rfl
  rw [isTapped, outcome_mapM_ok.mpr hbs, outcome_ok_bind, hany]
  rfl

theorem tapSignal_run (h : m.EdgesAgree) (hs : m.signal? id = some s) :
    (tapSignal id).run m = .ok () (if m.needsTap s then m.attach (s.tap id) else m) := by
  have hentry : (entry m.signals id.index : Except (ModelError α) (Signal α)) = .ok s :=
    entry_eq_ok.mpr hs
  have hsinks : ∀ e ∈ s.sinks, ∃ b, m.block? e.block = some b := by
    intro e he
    obtain ⟨b, hb, -⟩ := (h.sinks id s hs e).mp he
    exact ⟨b, hb⟩
  have hother : ∀ (j : SignalId) (x : Signal α), j ≠ id →
      x.joined j ⟨m.blocks.size⟩ (s.tap id) = x := by
    intro j x hj
    simp [Signal.joined, Signal.tap, Draft.readingSlots, Ne.symm hj]
  have hself : s.joined id ⟨m.blocks.size⟩ (s.tap id) =
      { s with sinks := s.sinks ++ [⟨⟨m.blocks.size⟩, 0⟩] } := by
    simp [Signal.joined, Signal.tap, Draft.readingSlots]
  have hguard : (m.hasTap s || !(s.sinks.isEmpty || s.roles.output)) = !m.needsTap s := by
    rw [needsTap]
    cases m.hasTap s <;> simp
  rw [← addBlock_eq_attach hs hother, hself]
  simp only [tapSignal, EStateM.run_bind, EStateM.run_get, run_lift, hentry, isTapped_eq hsinks]
  rw [← hasTap, hguard]
  cases m.needsTap s with
  | true => rfl
  | false => rfl

end Run

end Model

end BlockDiagram
