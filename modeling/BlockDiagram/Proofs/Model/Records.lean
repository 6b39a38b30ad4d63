import BlockDiagram.Proofs.Model.Sound
/-! Records: the input and output records that a model shows before its first cycle. Feeding and tapping
take the signals in the order of the arena, and each call adds one record or none. -/

namespace BlockDiagram

open Call

variable {α : Type}

namespace Signal

/-- Nothing produces the signal, and no constant will: the caller is to drive it. -/
def isOpen (s : Signal α) : Bool :=
  s.source.isNone && (s.initial.isNone || s.roles.isExternal)

/-- Nothing consumes the signal, or it has the role of an output. -/
def isExposed (s : Signal α) : Bool := s.sinks.isEmpty || s.roles.output

/-- The record of a signal among the inputs before any of them has been set. -/
def atInput [Arithmetic α] (s : Signal α) : Record α := s.shown (s.initial.getD (Arithmetic.ofNat 0))

/-- The record of a signal among the outputs before the first cycle. -/
def atOutput [Arithmetic α] (s : Signal α) : Record α := s.shown (Arithmetic.ofNat 0)

def sourceless (s : Signal α) : Signal α := { s with source := none }

variable [Scalar α]

theorem feeder_isInput (s : Signal α) (id : SignalId) :
    (s.feeder id).kind.isInput = (s.initial.isNone || s.roles.isExternal) := by
  unfold feeder
  cases s.initial with
  | none => rfl
  | some value => cases hexternal : s.roles.isExternal <;> simp [BlockKind.isInput]

theorem feeder_isOutput (s : Signal α) (id : SignalId) : (s.feeder id).kind.isOutput = false := by
  unfold feeder
  split
  · split <;> rfl
  · rfl

end Signal

namespace Model

/-- The records of the output blocks as the present wiring gives them. -/
def taps (m : Model α) : List (Record α) := m.outputs.filterMap m.outputRecord?

theorem outputVector_eq_taps {m : Model α} (h : m.results = []) : m.outputVector = m.taps := by
  rw [outputVector, taps, h]
  split
  · rename_i hlength
    rw [List.eq_nil_of_length_eq_zero hlength.symm]
    rfl
  · rfl

section Attach

variable {m : Model α} {b : Block α}

theorem attach_record? {id : BlockId} (hid : id.index < m.blocks.size) (x : SignalId) :
    (m.attach b).record? id x = m.record? id x := by
  rw [record?, record?, attach_block?, if_neg (Nat.ne_of_lt hid), attach_signal?]
  cases m.signal? x with
  | none => rfl
  | some s => rfl

theorem attach_inputRecord? {id : BlockId} (hid : id.index < m.blocks.size) :
    (m.attach b).inputRecord? id = m.inputRecord? id := by
  rw [inputRecord?, inputRecord?, attach_block?, if_neg (Nat.ne_of_lt hid)]
  simp only [attach_record? hid]

theorem attach_outputRecord? {id : BlockId} (hid : id.index < m.blocks.size) :
    (m.attach b).outputRecord? id = m.outputRecord? id := by
  rw [outputRecord?, outputRecord?, attach_block?, if_neg (Nat.ne_of_lt hid)]
  simp only [attach_record? hid]

theorem Enrolled.lt_of_mem (h : m.Enrolled) {id : BlockId} (hid : id ∈ m.inputs ∨ id ∈ m.outputs) :
    id.index < m.blocks.size := by
  rw [h.inputs, h.outputs] at hid
  rcases hid with hid | hid
  · exact Handle.mem_all.mp (List.mem_filter.mp hid).1
  · exact Handle.mem_all.mp (List.mem_filter.mp hid).1

/-- A block that is attached adds its record to the inputs if it is an input. -/
theorem attach_inputVector (h : m.Enrolled) {r : Record α}
    (hr : b.kind.isInput = true → (m.attach b).inputRecord? ⟨m.blocks.size⟩ = some r) :
    (m.attach b).inputVector = m.inputVector ++ if b.kind.isInput then [r] else [] := by
  have hold : m.inputs.filterMap (m.attach b).inputRecord? = m.inputVector :=
    List.filterMap_congr fun id hid => attach_inputRecord? (h.lt_of_mem (.inl hid))
  have hinputs : (m.attach b).inputs =
      if b.kind.isInput then m.inputs ++ [⟨m.blocks.size⟩] else m.inputs := rfl
  rw [inputVector, hinputs]
  split
  · rename_i hkind
    rw [List.filterMap_append, hold, List.filterMap_cons_some (hr hkind), List.filterMap_nil]
  · rw [hold, List.append_nil]

/-- A block that is attached adds its record to the outputs if it is an output. -/
theorem attach_taps (h : m.Enrolled) {r : Record α}
    (hr : b.kind.isOutput = true → (m.attach b).outputRecord? ⟨m.blocks.size⟩ = some r) :
    (m.attach b).taps = m.taps ++ if b.kind.isOutput then [r] else [] := by
  have hold : m.outputs.filterMap (m.attach b).outputRecord? = m.taps :=
    List.filterMap_congr fun id hid => attach_outputRecord? (h.lt_of_mem (.inr hid))
  have houtputs : (m.attach b).outputs =
      if b.kind.isOutput then m.outputs ++ [⟨m.blocks.size⟩] else m.outputs := rfl
  rw [taps, houtputs]
  split
  · rename_i hkind
    rw [List.filterMap_append, hold, List.filterMap_cons_some (hr hkind), List.filterMap_nil]
  · rw [hold, List.append_nil]

end Attach

section Passes

variable [Scalar α] {m : Model α}

/-- The handles stand for the signals. -/
def Bears (m : Model α) (ids : List SignalId) (ss : List (Signal α)) : Prop :=
  List.Forall₂ (fun id s => m.signal? id = some s) ids ss

omit [Scalar α] in
theorem bears_signalIds (m : Model α) : m.Bears m.signalIds m.signals.toList := by
  refine List.forall₂_iff_get.mpr ⟨by simp [signalIds], fun i hi hi' => ?_⟩
  have hlt : i < m.signals.size := by simpa using hi'
  simp [signalIds, Handle.all, signal?, hlt]

omit [Scalar α] in
theorem Bears.congr {m' : Model α} {ids : List SignalId} {ss : List (Signal α)} (h : m.Bears ids ss)
    (hsame : ∀ id ∈ ids, ∀ s, m.signal? id = some s → m'.signal? id = some s) : m'.Bears ids ss :=
  forall₂_imp h hsame

omit [Scalar α] in
theorem Bears.eq_take {m' : Model α} {ss : List (Signal α)} (h : m'.Bears m.signalIds ss) :
    ss = m'.signals.toList.take m.signals.size := by
  obtain ⟨hlength, hget⟩ := List.forall₂_iff_get.mp h
  rw [signalIds, Handle.length_all] at hlength
  refine List.ext_getElem? fun i => ?_
  rw [List.getElem?_take]
  split
  · rename_i hi
    have hentry := hget i (by rwa [signalIds, Handle.length_all]) (hlength ▸ hi)
    simp only [signalIds, Handle.all, List.get_eq_getElem, List.getElem_map, List.getElem_range, signal?]
      at hentry
    rw [List.getElem?_eq_getElem (hlength ▸ hi), Array.getElem?_toList, hentry]
  · rename_i hi
    exact List.getElem?_eq_none (hlength ▸ Nat.not_lt.mp hi)

omit [Scalar α] in
/-- Calls on one signal after the other that each add a record or none, and leave the signals alone that
are still to come. -/
theorem forM_records {call : SignalId → Running α Unit} {view : Model α → List (Record α)}
    {p : Signal α → Bool} {row : Signal α → Record α} {I : List SignalId → Model α → Prop}
    (hcall : ∀ id ids m s, I (id :: ids) m → m.signal? id = some s → ∃ m', (call id).run m = .ok () m' ∧
      I ids m' ∧ view m' = view m ++ (if p s then [row s] else []) ∧
      ∀ j ∈ ids, ∀ x, m.signal? j = some x → m'.signal? j = some x)
    {ids : List SignalId} {ss : List (Signal α)} (hs : m.Bears ids ss) (hm : I ids m) :
    ∃ m', (ids.forM call).run m = .ok () m' ∧ I [] m' ∧ view m' = view m ++ (ss.filter p).map row := by
  induction ids generalizing m ss with
  | nil =>
      cases hs
      exact ⟨m, rfl, hm, by simp⟩
  | cons id ids ih =>
      obtain ⟨s, rest, hid, hrest, rfl⟩ := List.forall₂_cons_left_iff.mp hs
      obtain ⟨m₁, hrun, hm₁, hview, hsame⟩ := hcall id ids m s hm hid
      obtain ⟨m₂, hruns, hm₂, hviews⟩ := ih (Bears.congr hrest hsame) hm₁
      refine ⟨m₂, run_bind_ok.mpr ⟨(), m₁, hrun, hruns⟩, hm₂, ?_⟩
      rw [hviews, hview, List.append_assoc, List.filter_cons]
      split
      · rfl
      · rfl

end Passes

section Feed

variable [Scalar α] {m : Model α} {id : SignalId} {s : Signal α}

/-- Feeding leaves all of a signal but its source. -/
theorem attach_feeder_sourceless :
    (m.attach (s.feeder id)).signals.toList.map Signal.sourceless =
      m.signals.toList.map Signal.sourceless := by
  refine List.ext_getElem? fun i => ?_
  have hentry : (m.attach (s.feeder id)).signal? ⟨i⟩ = _ := attach_signal?
  rw [signal?, signal?] at hentry
  rw [List.getElem?_map, List.getElem?_map, Array.getElem?_toList, Array.getElem?_toList, hentry,
    Option.map_map]
  refine congrArg (Option.map · m.signals[i]?) (funext fun x => ?_)
  simp [Signal.joined, Signal.sourceless, s.feeder_inputs, Draft.readingSlots]

omit [Scalar α] in
/-- Whether a signal is shown at the outputs, and how, does not depend on its source. -/
theorem exposed_of_sourceless [Arithmetic α] {ss ts : List (Signal α)}
    (h : ss.map Signal.sourceless = ts.map Signal.sourceless) :
    (ss.filter Signal.isExposed).map Signal.atOutput =
      (ts.filter Signal.isExposed).map Signal.atOutput := by
  have hmap : ∀ us : List (Signal α), (us.filter Signal.isExposed).map Signal.atOutput =
      ((us.map Signal.sourceless).filter Signal.isExposed).map Signal.atOutput := by
    intro us
    rw [List.filter_map, List.map_map]
    rfl
  rw [hmap, h, ← hmap]

theorem feeder_inputRecord? (hs : m.signal? id = some s) :
    (m.attach (s.feeder id)).inputRecord? ⟨m.blocks.size⟩ = some s.atInput := by
  have hvalue : (s.feeder id).value = s.initial.getD (Arithmetic.ofNat 0) := by
    unfold Signal.feeder
    split
    · rename_i value hinitial
      rw [hinitial]
      split <;> rfl
    · rename_i hinitial
      rw [hinitial]
      rfl
  simp only [inputRecord?, record?, attach_block?, if_pos, attach_signal?, hs, Option.bind_eq_bind,
    Option.bind_some, s.feeder_output, Option.map_some, hvalue]
  rfl

/-- What the feeding of the signals keeps, and what of them is still to come. -/
structure Feeding (m₁ : Model α) (ids : List SignalId) (m : Model α) : Prop where
  edges : m.EdgesAgree
  enrolled : m.Enrolled
  nodup : ids.Nodup
  outputs : m.outputs = m₁.outputs
  results : m.results = m₁.results
  signals : m.signals.toList.map Signal.sourceless = m₁.signals.toList.map Signal.sourceless

theorem Feeding.step {m₁ : Model α} {ids : List SignalId} (h : Feeding m₁ (id :: ids) m)
    (hs : m.signal? id = some s) : ∃ m', (feedSignal id).run m = .ok () m' ∧ Feeding m₁ ids m' ∧
      m'.inputVector = m.inputVector ++ (if s.isOpen then [s.atInput] else []) ∧
      ∀ j ∈ ids, ∀ x, m.signal? j = some x → m'.signal? j = some x := by
  obtain ⟨hid, hnodup⟩ := List.nodup_cons.mp h.nodup
  refine ⟨_, feedSignal_run hs, ?_⟩
  cases hsource : s.source with
  | some e =>
      simp only [Option.isSome_some, if_true, Signal.isOpen, hsource, Option.isNone_some,
        Bool.false_and, Bool.false_eq_true, if_false, List.append_nil]
      exact ⟨{ h with nodup := hnodup }, trivial, fun _ _ _ hx => hx⟩
  | none =>
      have hkind : (s.feeder id).kind.isInput = s.isOpen := by
        rw [s.feeder_isInput, Signal.isOpen, hsource]
        rfl
      simp only [Option.isSome_none, Bool.false_eq_true, if_false]
      refine ⟨⟨h.edges.feed hs hsource, h.enrolled.attach _, hnodup, ?_, h.results, ?_⟩, ?_, ?_⟩
      · rw [← h.outputs]
        exact if_neg (by rw [s.feeder_isOutput]; exact Bool.false_ne_true)
      · rw [attach_feeder_sourceless, h.signals]
      · rw [← hkind]
        exact attach_inputVector h.enrolled fun _ => feeder_inputRecord? hs
      · intro j hj x hx
        have hne : (some id : Option SignalId) ≠ some j := by
          rintro ⟨⟩
          exact hid hj
        rw [attach_signal?_of_some hx, Signal.joined, s.feeder_inputs, s.feeder_output, if_neg hne]
        simp [Draft.readingSlots]

/-- Feeding adds an input for each signal that is open, in the order of the signals. -/
theorem feedSignals_records (h : m.EdgesAgree) (henrolled : m.Enrolled) :
    ∃ m', (feedSignals m.signalIds).run m = .ok () m' ∧ Feeding m [] m' ∧
      m'.inputVector = m.inputVector ++
        (m.signals.toList.filter Signal.isOpen).map Signal.atInput := by
  rw [feedSignals_eq]
  refine forM_records (I := Feeding m) (fun id ids n s hn hs => hn.step hs) m.bears_signalIds ?_
  exact ⟨h, henrolled, Handle.nodup_all _, rfl, rfl, rfl⟩

end Feed

section Tap

variable [Scalar α] {m : Model α} {id : SignalId} {s : Signal α}

/-- What the tapping of the signals keeps. Those that are still to come have no output block yet. -/
structure Tapping (rows : List (Record α)) (ids : List SignalId) (m : Model α) : Prop where
  edges : m.EdgesAgree
  enrolled : m.Enrolled
  nodup : ids.Nodup
  inputs : m.inputVector = rows
  results : m.results = []
  untapped : ∀ id ∈ ids, ∀ s, m.signal? id = some s → m.hasTap s = false

theorem Tapping.step {rows : List (Record α)} {ids : List SignalId} (h : Tapping rows (id :: ids) m)
    (hs : m.signal? id = some s) : ∃ m', (tapSignal id).run m = .ok () m' ∧ Tapping rows ids m' ∧
      m'.taps = m.taps ++ (if s.isExposed then [s.atOutput] else []) ∧
      ∀ j ∈ ids, ∀ x, m.signal? j = some x → m'.signal? j = some x := by
  obtain ⟨hid, hnodup⟩ := List.nodup_cons.mp h.nodup
  have hneed : m.needsTap s = s.isExposed := by
    rw [needsTap, h.untapped id List.mem_cons_self s hs]
    rfl
  refine ⟨_, tapSignal_run h.edges hs, ?_⟩
  rw [hneed]
  cases hexposed : s.isExposed with
  | false =>
      simp only [Bool.false_eq_true, if_false, List.append_nil]
      exact ⟨{ h with nodup := hnodup, untapped := fun j hj => h.untapped j (List.mem_cons_of_mem _ hj) },
        trivial, fun _ _ _ hx => hx⟩
  | true =>
      have hsame : ∀ j ∈ ids, ∀ x, m.signal? j = some x → (m.attach (s.tap id)).signal? j = some x := by
        intro j hj x hx
        have hne : id ≠ j := by
          rintro rfl
          exact hid hj
        rw [attach_signal?_of_some hx]
        simp [Signal.joined, Signal.tap, Draft.readingSlots, hne]
      simp only [if_true]
      refine ⟨⟨h.edges.tap hs, h.enrolled.attach _, hnodup, ?_, h.results, ?_⟩, ?_, hsame⟩
      · rw [attach_inputVector (r := s.atInput) h.enrolled (fun hkind => by cases hkind), h.inputs]
        exact List.append_nil _
      · intro j hj x hx
        obtain ⟨y, hy⟩ : ∃ y, m.signal? j = some y := by
          have hlt := signal?_lt hx
          rw [attach_signals_size] at hlt
          exact exists_signal hlt
        cases hx.symm.trans (hsame j hj y hy)
        -- The consumers are blocks that stood before the tap, so their kinds are as they were.
        rw [← h.untapped j (List.mem_cons_of_mem _ hj) x hy, hasTap, hasTap, Bool.eq_iff_iff,
          List.any_eq_true, List.any_eq_true]
        refine exists_congr fun e => and_congr_right fun he => ?_
        obtain ⟨b, hb, -⟩ := (h.edges.sinks j x hy e).mp he
        rw [kindOf?, kindOf?, attach_block?_of_some hb, hb]
      · refine attach_taps (r := s.atOutput) h.enrolled fun _ => outputRecord?_eq_some.mpr ?_
        exact ⟨_, id, _, by rw [attach_block?, if_pos rfl], rfl, attach_signal?_of_some hs, rfl⟩

omit [Scalar α] in
theorem hasTap_of_outputs_nil (h : m.Enrolled) (hedges : m.EdgesAgree) (hnil : m.outputs = [])
    (hs : m.signal? id = some s) : m.hasTap s = false := by
  rw [hasTap, List.any_eq_false]
  intro e he houtput
  obtain ⟨b, hb, -⟩ := (hedges.sinks id s hs e).mp he
  have hin : e.block ∈ m.outputs := by
    rw [h.outputs]
    exact List.mem_filter.mpr ⟨Handle.mem_all.mpr (block?_lt hb), houtput⟩
  rw [hnil] at hin
  cases hin

/-- Tapping adds an output for each signal that is exposed, in the order of the signals. -/
theorem tapSignals_records (h : m.EdgesAgree) (henrolled : m.Enrolled) (houtputs : m.outputs = [])
    (hresults : m.results = []) :
    ∃ m', (tapSignals m.signalIds).run m = .ok () m' ∧ m'.inputVector = m.inputVector ∧
      m'.outputVector = (m.signals.toList.filter Signal.isExposed).map Signal.atOutput := by
  rw [tapSignals_eq]
  obtain ⟨m', hrun, hm', htaps⟩ := forM_records (I := Tapping m.inputVector)
    (fun id ids n s hn hs => hn.step hs) m.bears_signalIds
    ⟨h, henrolled, Handle.nodup_all _, rfl, hresults,
      fun id _ s hs => hasTap_of_outputs_nil henrolled h houtputs hs⟩
  refine ⟨m', hrun, hm'.inputs, ?_⟩
  rw [outputVector_eq_taps hm'.results, htaps, taps, houtputs]
  rfl

end Tap

end Model

end BlockDiagram
