import BlockDiagram.Proofs.Model.Completion
import Mathlib.Logic.Relation
/-! Extension: completion as a run of changes that are due, and what it leaves when none is due any more.
-/

namespace BlockDiagram

open Call

variable {α : Type}

namespace Signal

/-- The signal has gained wires and has lost none. -/
structure Grows (s s' : Signal α) : Prop where
  unwired : s'.unwired = s.unwired
  source : ∀ e, s.source = some e → s'.source = some e
  sinks : s.sinks <+: s'.sinks

end Signal

namespace Model

section Extends

variable [Scalar α] {m m' : Model α}

/-- One change that completion may make, where it is due. -/
inductive Extends (m : Model α) : Model α → Prop
  | limit {id : SignalId} {s : Signal α} : m.signal? id = some s → s.needsLimiter = true →
      Extends m (m.splice id s)
  | feed {id : SignalId} {s : Signal α} : m.signal? id = some s → s.source = none →
      Extends m (m.attach (s.feeder id))
  | tap {id : SignalId} {s : Signal α} : m.signal? id = some s → m.needsTap s = true →
      Extends m (m.attach (s.tap id))

theorem EdgesAgree.feed {id : SignalId} {s : Signal α} (h : m.EdgesAgree) (hs : m.signal? id = some s)
    (hsource : s.source = none) : (m.attach (s.feeder id)).EdgesAgree := by
  refine h.attach ?_ ?_
  · rw [s.feeder_inputs]
    intro x hx
    cases hx
  · rw [s.feeder_output]
    rintro x ⟨⟩
    exact ⟨s, hs, hsource⟩

theorem EdgesAgree.tap {id : SignalId} {s : Signal α} (h : m.EdgesAgree)
    (hs : m.signal? id = some s) : (m.attach (s.tap id)).EdgesAgree := by
  refine h.attach ?_ ?_
  · intro x hx
    rw [List.mem_singleton.mp hx]
    exact signal?_lt hs
  · rintro x ⟨⟩

theorem Extends.edges (h : Extends m m') (hm : m.EdgesAgree) : m'.EdgesAgree := by
  cases h with
  | limit hs _ => exact hm.splice hs
  | feed hs hsource => exact hm.feed hs hsource
  | tap hs _ => exact hm.tap hs

theorem Extends.grids (h : Extends m m') : m'.breakpoints = m.breakpoints ∧ m'.tables = m.tables := by
  cases h <;> exact ⟨rfl, rfl⟩

/-- A property that every change keeps holds of what completion ends in. -/
theorem extends_keeps {P : Model α → Prop} (hstep : ∀ m m', Extends m m' → P m → P m')
    (h : Relation.ReflTransGen Extends m m') (hm : P m) : P m' := by
  induction h with
  | refl => exact hm
  | tail _ hlast ih => exact hstep _ _ hlast ih

theorem edges_of_extends (h : Relation.ReflTransGen Extends m m') (hm : m.EdgesAgree) :
    m'.EdgesAgree :=
  extends_keeps (fun _ _ hstep => hstep.edges) h hm

theorem grids_of_extends (h : Relation.ReflTransGen Extends m m') :
    m'.breakpoints = m.breakpoints ∧ m'.tables = m.tables :=
  extends_keeps (P := fun n => n.breakpoints = m.breakpoints ∧ n.tables = m.tables)
    (fun _ _ hstep hn => ⟨hstep.grids.1.trans hn.1, hstep.grids.2.trans hn.2⟩) h ⟨rfl, rfl⟩

/-- Signals have gained wires and blocks have been added; nothing else has changed. -/
structure Grows (m m' : Model α) : Prop where
  size : m'.signals.size = m.signals.size
  signals : ∀ id s, m.signal? id = some s → ∃ s', m'.signal? id = some s' ∧ s.Grows s'
  blocks : ∀ id b, m.block? id = some b → m'.block? id = some b

namespace Grows

omit [Scalar α]

theorem refl (m : Model α) : m.Grows m :=
  ⟨rfl, fun _ s hs => ⟨s, hs, rfl, fun _ he => he, List.prefix_refl s.sinks⟩, fun _ _ hb => hb⟩

theorem trans {m₁ m₂ m₃ : Model α} (h : m₁.Grows m₂) (h' : m₂.Grows m₃) : m₁.Grows m₃ := by
  refine ⟨h'.size.trans h.size, ?_, fun id b hb => h'.blocks id b (h.blocks id b hb)⟩
  intro id s hs
  obtain ⟨t, ht, hst⟩ := h.signals id s hs
  obtain ⟨u, hu, htu⟩ := h'.signals id t ht
  exact ⟨u, hu, htu.unwired.trans hst.unwired, fun e he => htu.source e (hst.source e he),
    hst.sinks.trans htu.sinks⟩

theorem attach {b : Block α}
    (houtput : ∀ s, b.output = some s → ∃ x, m.signal? s = some x ∧ x.source = none) :
    m.Grows (m.attach b) := by
  refine ⟨attach_signals_size m b, ?_, fun _ _ => attach_block?_of_some⟩
  intro id s hs
  refine ⟨s.joined id ⟨m.blocks.size⟩ b, attach_signal?_of_some hs, rfl, ?_,
    List.prefix_append _ _⟩
  intro e he
  rw [Signal.joined]
  split
  · obtain ⟨x, hx, hnone⟩ := houtput id ‹_›
    cases hs.symm.trans hx
    rw [hnone] at he
    cases he
  · exact he

end Grows

omit [Scalar α] in
theorem needsTap_of_grows (h : m.Grows m') {id : SignalId} {s s' : Signal α}
    (hs : m.signal? id = some s) (hs' : m'.signal? id = some s') (hneed : m.needsTap s = false) :
    m'.needsTap s' = false := by
  obtain ⟨t, ht, hst⟩ := h.signals id s hs
  cases hs'.symm.trans ht
  have hroles : s'.unwired.roles = s.unwired.roles := by rw [hst.unwired]
  change s'.roles = s.roles at hroles
  have htap : m.hasTap s = true → m'.hasTap s' = true := by
    intro hin
    obtain ⟨e, he, hout⟩ := List.any_eq_true.mp hin
    refine List.any_eq_true.mpr ⟨e, hst.sinks.subset he, ?_⟩
    rw [kindOf?] at hout ⊢
    cases hb : m.block? e.block with
    | none => rw [hb] at hout; cases hout
    | some b => rw [h.blocks e.block b hb]; rwa [hb] at hout
  have hempty : s'.sinks.isEmpty = true → s.sinks.isEmpty = true := by
    intro hnil
    rw [List.isEmpty_iff] at hnil ⊢
    exact List.prefix_nil.mp (hnil ▸ hst.sinks)
  unfold needsTap at hneed ⊢
  rw [hroles]
  cases hin : m.hasTap s with
  | true => rw [htap hin]; rfl
  | false =>
      rw [hin] at hneed
      simp only [Bool.not_false, Bool.true_and, Bool.or_eq_false_iff] at hneed
      have hfull : s'.sinks.isEmpty = false := by
        by_contra hne
        rw [hempty (by simpa using hne)] at hneed
        cases hneed.1
      rw [hfull, hneed.2, Bool.or_false, Bool.and_false]

omit [Scalar α] in
theorem source_of_grows (m m' : Model α) (id : SignalId) (h : m.Grows m')
    (hm : ∃ s e, m.signal? id = some s ∧ s.source = some e) :
    ∃ s e, m'.signal? id = some s ∧ s.source = some e := by
  obtain ⟨s, e, hs, he⟩ := hm
  obtain ⟨s', hs', hss'⟩ := h.signals id s hs
  exact ⟨s', e, hs', hss'.source e he⟩

omit [Scalar α] in
theorem tapped_of_grows (m m' : Model α) (id : SignalId) (h : m.Grows m')
    (hm : ∃ s, m.signal? id = some s ∧ m.needsTap s = false) :
    ∃ s, m'.signal? id = some s ∧ m'.needsTap s = false := by
  obtain ⟨s, hs, hneed⟩ := hm
  obtain ⟨s', hs', -⟩ := h.signals id s hs
  exact ⟨s', hs', needsTap_of_grows h hs hs' hneed⟩

/-- Calls that each settle one signal, whatever has grown in between, settle all of them. -/
theorem forM_run {call : SignalId → Running α Unit} {P : Model α → SignalId → Prop}
    (hcall : ∀ m id, m.EdgesAgree → id.index < m.signals.size → ∃ m', (call id).run m = .ok () m' ∧
      Relation.ReflTransGen Extends m m' ∧ m.Grows m' ∧ P m' id)
    (hstay : ∀ m m' id, m.Grows m' → P m id → P m' id) {ids : List SignalId} (h : m.EdgesAgree)
    (hids : ∀ id ∈ ids, id.index < m.signals.size) :
    ∃ m', (ids.forM call).run m = .ok () m' ∧ Relation.ReflTransGen Extends m m' ∧ m.Grows m' ∧
      ∀ id ∈ ids, P m' id := by
  induction ids generalizing m with
  | nil => exact ⟨m, rfl, .refl, .refl m, fun id hid => by cases hid⟩
  | cons id ids ih =>
      obtain ⟨m₁, hrun, hext, hgrows, hP⟩ := hcall m id h (hids id List.mem_cons_self)
      obtain ⟨m₂, hrun₂, hext₂, hgrows₂, hP₂⟩ := ih (edges_of_extends hext h) fun j hj => by
        rw [hgrows.size]
        exact hids j (List.mem_cons_of_mem id hj)
      refine ⟨m₂, ?_, hext.trans hext₂, hgrows.trans hgrows₂, ?_⟩
      · exact run_bind_ok.mpr ⟨(), m₁, hrun, hrun₂⟩
      · intro j hj
        rcases List.mem_cons.mp hj with rfl | hj
        · exact hstay m₁ m₂ j hgrows₂ hP
        · exact hP₂ j hj

theorem feedSignals_eq (ids : List SignalId) :
    (feedSignals ids : Running α Unit) = ids.forM feedSignal := by
  induction ids with
  | nil => rfl
  | cons id ids ih =>
      rw [feedSignals, ih]
      rfl

theorem tapSignals_eq (ids : List SignalId) :
    (tapSignals ids : Running α Unit) = ids.forM tapSignal := by
  induction ids with
  | nil => rfl
  | cons id ids ih =>
      rw [tapSignals, ih]
      rfl

theorem limitSignals_run {ids : List SignalId} (h : m.EdgesAgree) (hnodup : ids.Nodup)
    (hids : ∀ id, id ∈ ids ↔ ∃ s, m.signal? id = some s ∧ s.needsLimiter = true) :
    ∃ m', (limitSignals ids).run m = .ok () m' ∧ Relation.ReflTransGen Extends m m' ∧
      ∀ id s, m'.signal? id = some s → s.needsLimiter = false := by
  induction ids generalizing m with
  | nil =>
      refine ⟨m, rfl, .refl, ?_⟩
      intro id s hs
      have hnot := (hids id).not.mp List.not_mem_nil
      simpa using fun hneed => hnot ⟨s, hs, hneed⟩
  | cons id ids ih =>
      obtain ⟨s, hs, hneed⟩ := (hids id).mp List.mem_cons_self
      rw [List.nodup_cons] at hnodup
      have hrest : ∀ j, j ∈ ids ↔
          ∃ x, (m.splice id s).signal? j = some x ∧ x.needsLimiter = true := by
        intro j
        constructor
        · intro hj
          have hne : j ≠ id := fun heq => hnodup.1 (heq ▸ hj)
          obtain ⟨x, hx, hxneed⟩ := (hids j).mp (List.mem_cons_of_mem id hj)
          exact ⟨x, splice_signal?_of_ne hs hne hx, hxneed⟩
        · rintro ⟨x, hx, hxneed⟩
          rcases splice_signal_cases hs hx with ⟨-, rfl⟩ | ⟨-, rfl⟩ | ⟨hne, hx⟩
          · cases hxneed
          · cases hxneed
          · exact List.mem_of_ne_of_mem hne ((hids j).mpr ⟨x, hx, hxneed⟩)
      obtain ⟨m', hrun, hext, hdone⟩ := ih (h.splice hs) hnodup.2 hrest
      exact ⟨m', run_bind_ok.mpr ⟨(), _, limitSignal_run h hs, hrun⟩, .head (.limit hs hneed) hext,
        hdone⟩

/-- Every signal is limited, produced and consumed as it has to be. -/
structure Complete (m : Model α) : Prop where
  limited : ∀ id s, m.signal? id = some s → s.needsLimiter = false
  fed : ∀ id s, m.signal? id = some s → ∃ e, s.source = some e
  tapped : ∀ id s, m.signal? id = some s → m.needsTap s = false

theorem joined_sinks_tap {id j : SignalId} {s x : Signal α} {p : BlockId} :
    (x.joined j p (s.tap id)).sinks = if id = j then x.sinks ++ [⟨p, 0⟩] else x.sinks := by
  simp only [Signal.joined, Signal.tap, Draft.readingSlots]
  split
  · rfl
  · exact List.append_nil x.sinks

theorem needsTap_tapped {id : SignalId} {s : Signal α} :
    (m.attach (s.tap id)).needsTap (s.joined id ⟨m.blocks.size⟩ (s.tap id)) = false := by
  have htap : (m.attach (s.tap id)).hasTap (s.joined id ⟨m.blocks.size⟩ (s.tap id)) = true := by
    refine List.any_eq_true.mpr ⟨⟨⟨m.blocks.size⟩, 0⟩, ?_, ?_⟩
    · rw [joined_sinks_tap, if_pos rfl]
      exact List.mem_append_right _ List.mem_cons_self
    · rw [kindOf?, attach_block?, if_pos rfl]
      rfl
  rw [needsTap, htap]
  rfl

theorem feedSignal_settles {id : SignalId} (hid : id.index < m.signals.size) :
    ∃ m', (feedSignal id).run m = .ok () m' ∧ Relation.ReflTransGen Extends m m' ∧ m.Grows m' ∧
      ∃ s e, m'.signal? id = some s ∧ s.source = some e := by
  obtain ⟨s, hs⟩ := exists_signal hid
  rw [feedSignal_run hs]
  cases hsource : s.source with
  | some e => exact ⟨m, rfl, .refl, .refl m, s, e, hs, hsource⟩
  | none =>
      have hfed : ∀ x, (s.feeder id).output = some x →
          ∃ y, m.signal? x = some y ∧ y.source = none := by
        rw [s.feeder_output]
        rintro x ⟨⟩
        exact ⟨s, hs, hsource⟩
      simp only [Option.isSome_none, Bool.false_eq_true, ↓reduceIte]
      refine ⟨_, rfl, .single (.feed hs hsource), .attach hfed, _,
        ⟨⟨m.blocks.size⟩, 0⟩, attach_signal?_of_some hs, ?_⟩
      dsimp only [Signal.joined]
      rw [s.feeder_output, if_pos rfl]

theorem tapSignal_settles {id : SignalId} (h : m.EdgesAgree) (hid : id.index < m.signals.size) :
    ∃ m', (tapSignal id).run m = .ok () m' ∧ Relation.ReflTransGen Extends m m' ∧ m.Grows m' ∧
      ∃ s, m'.signal? id = some s ∧ m'.needsTap s = false := by
  obtain ⟨s, hs⟩ := exists_signal hid
  rw [tapSignal_run h hs]
  cases hneed : m.needsTap s with
  | false => exact ⟨m, rfl, .refl, .refl m, s, hs, hneed⟩
  | true =>
      rw [if_pos rfl]
      exact ⟨_, rfl, .single (.tap hs hneed), .attach (by rintro x ⟨⟩), _,
        attach_signal?_of_some hs, needsTap_tapped⟩

/-- Completion succeeds on a model whose edges agree, and leaves nothing to do. -/
theorem complete_run (h : m.EdgesAgree) :
    ∃ m', complete.run m = .ok () m' ∧ Relation.ReflTransGen Extends m m' ∧ m'.Complete := by
  have hdue : ∀ id, (id ∈ m.signalIds.filter fun id => (m.signal? id).any Signal.needsLimiter) ↔
      ∃ s, m.signal? id = some s ∧ s.needsLimiter = true := by
    intro id
    rw [List.mem_filter, signalIds, Handle.mem_all, Option.any_eq_true]
    exact and_iff_right_of_imp fun ⟨s, hs, _⟩ => signal?_lt hs
  have hin : ∀ (m : Model α) (id : SignalId), id ∈ m.signalIds → id.index < m.signals.size :=
    fun _ _ hid => Handle.mem_all.mp hid
  obtain ⟨m₁, hrun₁, hext₁, hlimited⟩ := limitSignals_run h
    ((Handle.nodup_all m.signals.size).filter _) hdue
  have h₁ := edges_of_extends hext₁ h
  obtain ⟨m₂, hrun₂, hext₂, hgrows₂, hfed⟩ := forM_run
    (P := fun m id => ∃ s e, m.signal? id = some s ∧ s.source = some e)
    (fun m id _ hid => feedSignal_settles hid) source_of_grows h₁ (hin m₁)
  have h₂ := edges_of_extends hext₂ h₁
  obtain ⟨m₃, hrun₃, hext₃, hgrows₃, htapped⟩ := forM_run
    (P := fun m id => ∃ s, m.signal? id = some s ∧ m.needsTap s = false)
    (fun m id => tapSignal_settles) tapped_of_grows h₂ (hin m₂)
  refine ⟨m₃, ?_, hext₁.trans (hext₂.trans hext₃), ?_⟩
  · rw [← feedSignals_eq] at hrun₂
    rw [← tapSignals_eq] at hrun₃
    refine run_bind_ok.mpr ⟨m, m, rfl, run_bind_ok.mpr ⟨(), m₁, hrun₁, ?_⟩⟩
    refine run_bind_ok.mpr ⟨m₁, m₁, rfl, run_bind_ok.mpr ⟨(), m₂, hrun₂, ?_⟩⟩
    exact run_bind_ok.mpr ⟨m₂, m₂, rfl, hrun₃⟩
  · have hgrows := hgrows₂.trans hgrows₃
    have hold : ∀ id s, m₃.signal? id = some s → id ∈ m₁.signalIds ∧ id ∈ m₂.signalIds := by
      intro id s hs
      have hlt := signal?_lt hs
      rw [signalIds, signalIds, Handle.mem_all, Handle.mem_all, ← hgrows.size, ← hgrows₃.size]
      exact ⟨hlt, hlt⟩
    constructor
    · intro id s hs
      obtain ⟨t, ht⟩ := exists_signal (hin m₁ id (hold id s hs).1)
      obtain ⟨s', hs', hts⟩ := hgrows.signals id t ht
      cases hs.symm.trans hs'
      rw [← Signal.needsLimiter_unwired, hts.unwired, Signal.needsLimiter_unwired]
      exact hlimited id t ht
    · intro id s hs
      obtain ⟨t, e, ht, he⟩ := hfed id (hold id s hs).1
      obtain ⟨s', hs', hts⟩ := hgrows₃.signals id t ht
      cases hs.symm.trans hs'
      exact ⟨e, hts.source e he⟩
    · intro id s hs
      obtain ⟨s', hs', hneed⟩ := htapped id (hold id s hs).2
      cases hs.symm.trans hs'
      exact hneed

end Extends

end Model

end BlockDiagram
