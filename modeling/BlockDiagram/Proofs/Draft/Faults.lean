import BlockDiagram.Proofs.Draft.Binding
import BlockDiagram.Proofs.Draft.Realization
/-! Faults: what can keep a block from being wired, port by port. A block is wired unless one of its
ports is at fault, and the first of them decides the failure. -/

namespace BlockDiagram

open Call

/-- The signal a block has in a port. -/
def Port.signal? {α : Type} (b : Block α) : Port → Option SignalId
  | slot n => b.inputs[n]?
  | output => b.output

namespace Draft

variable {α : Type} {d : Draft α}

/-- The reference stands for the signal. -/
def Denotes (d : Draft α) : Reference → SignalId → Prop
  | .signal i, id => i = id
  | .variable v, id => ∃ s, d.signals[id.index]? = some s ∧ s.varId = v

/-- The block holds a reference to the signal in a port. -/
def Ties (d : Draft α) (b : DraftBlock α) (port : Port) (id : SignalId) : Prop :=
  ∃ r, port.held? b = some r ∧ d.Denotes r id

/-- The port of a block cannot be wired behind the blocks `done`, and the failure says why. -/
inductive PortFault (d : Draft α) (done : List (DraftBlock α)) (b : DraftBlock α) :
    Port → ModelError α → Prop
  | unbound {n : Nat} : b.inputs[n]? = some none →
      PortFault d done b (.slot n) (.unboundSlot b.name n)
  | undeclared {port : Port} {v : String} : port.held? b = some (.variable v) → v ∉ d.varIds →
      PortFault d done b port (.unresolved b.name v)
  | taken {i : Nat} {b₁ : DraftBlock α} {id : SignalId} {s : Signal α} : done[i]? = some b₁ →
      d.Ties b₁ .output id → d.Ties b .output id → d.signals[id.index]? = some s →
      PortFault d done b .output (.duplicateSource s.varId b₁.name b.name)

/-- The port of a block is at fault behind the blocks that come before. -/
def FaultAt (d : Draft α) (terminal : Terminal) (e : ModelError α) : Prop :=
  ∃ b, d.blocks[terminal.block.index]? = some b ∧
    d.PortFault (d.blocks.toList.take terminal.block.index) b terminal.port e

/-- The terminal is at fault, and none before it is. -/
structure FirstFault (d : Draft α) (terminal : Terminal) (e : ModelError α) : Prop where
  fault : d.FaultAt terminal e
  first : ∀ q e', q.Before terminal → ¬ d.FaultAt q e'

section Denotes

theorem Denotes.declared {v : String} {id : SignalId} (h : d.Denotes (.variable v) id) :
    v ∈ d.varIds := by
  obtain ⟨s, hs, hv⟩ := h
  exact mem_varIds.mpr ⟨_, s, hs, hv⟩

theorem Denotes.unique (hd : d.Sound) {r : Reference} {a b : SignalId} (ha : d.Denotes r a)
    (hb : d.Denotes r b) : a = b := by
  cases r with
  | signal i => exact ha.symm.trans hb
  | «variable» v =>
      obtain ⟨s, hs, hsv⟩ := ha
      obtain ⟨t, ht, htv⟩ := hb
      exact Handle.eq_mk (hd.distinct _ _ s t hs ht (hsv.trans htv.symm))

theorem Denotes.inRange {r : Reference} {id : SignalId} (h : d.Denotes r id)
    (hr : ∀ i, r = .signal i → i.index < d.signals.size) : id.index < d.signals.size := by
  cases r with
  | signal i =>
      cases h
      exact hr _ rfl
  | «variable» v =>
      obtain ⟨s, hs, -⟩ := h
      exact (Array.getElem?_eq_some_iff.mp hs).1

theorem resolve_eq_ok (hd : d.Sound) {block : String} {r : Reference} {id : SignalId} :
    d.resolve block r = .ok id ↔ d.Denotes r id := by
  cases r with
  | signal i => exact Iff.of_eq (Except.ok.injEq i id)
  | «variable» v =>
      rw [Denotes, ← signalId?_eq_some hd, resolve]
      cases d.signalId? v with
      | none =>
          constructor
          · rintro ⟨⟩
          · rintro ⟨⟩
      | some j => rw [Except.ok.injEq, Option.some.injEq]

theorem resolve_eq_error {block : String} {r : Reference} {e : ModelError α} :
    d.resolve block r = .error e ↔
      ∃ v, r = .variable v ∧ v ∉ d.varIds ∧ e = .unresolved block v := by
  cases r with
  | signal i =>
      constructor
      · rintro ⟨⟩
      · rintro ⟨v, ⟨⟩, -⟩
  | «variable» v =>
      rw [resolve]
      cases hid : d.signalId? v with
      | some id =>
          obtain ⟨i, hi, -⟩ := Option.map_eq_some_iff.mp hid
          obtain ⟨s, hs, hv⟩ := entry_of_findIdx hi
          constructor
          · rintro ⟨⟩
          · rintro ⟨w, ⟨⟩, hundeclared, -⟩
            exact absurd (mem_varIds.mpr ⟨i, s, hs, hv⟩) hundeclared
      | none =>
          have hundeclared : v ∉ d.varIds := by
            intro hin
            obtain ⟨i, s, hs, hv⟩ := mem_varIds.mp hin
            obtain ⟨j, hj⟩ := findIdx_isSome hs hv
            rw [signalId?, hj] at hid
            cases hid
          constructor
          · rintro ⟨⟩
            exact ⟨v, rfl, hundeclared, rfl⟩
          · rintro ⟨w, ⟨⟩, -, rfl⟩
            rfl

/-- The slots are resolved up to the first one that is open or bound to an undeclared variable. -/
theorem resolveSlots_cases (hd : d.Sound) (block : String) (slot : Nat)
    (xs : List (Option Reference)) :
    (∃ ids, d.resolveSlots block slot xs = .ok ids ∧
      List.Forall₂ (fun x id => ∃ r, x = some r ∧ d.Denotes r id) xs ids) ∨
    ∃ n e, d.resolveSlots block slot xs = .error e ∧
      (∀ k < n, ∃ r id, xs[k]? = some (some r) ∧ d.Denotes r id) ∧
      (xs[n]? = some none ∧ e = .unboundSlot block (slot + n) ∨
        ∃ v, xs[n]? = some (some (.variable v)) ∧ v ∉ d.varIds ∧ e = .unresolved block v) := by
  induction xs generalizing slot with
  | nil => exact .inl ⟨[], rfl, .nil⟩
  | cons x xs ih =>
      cases x with
      | none => exact .inr ⟨0, _, rfl, nofun, .inl ⟨rfl, rfl⟩⟩
      | some r =>
          cases hr : d.resolve block r with
          | error e =>
              obtain ⟨v, rfl, hv, rfl⟩ := resolve_eq_error.mp hr
              exact .inr ⟨0, _, outcome_bind_error.mpr (.inl hr), nofun, .inr ⟨v, rfl, hv, rfl⟩⟩
          | ok id =>
              have hid := (resolve_eq_ok hd).mp hr
              rcases ih (slot + 1) with ⟨ids, hids, hall⟩ | ⟨n, e, hfail, hbefore, hat⟩
              · left
                exact ⟨id :: ids, outcome_bind_ok.mpr ⟨id, hr, outcome_bind_ok.mpr ⟨ids, hids, rfl⟩⟩,
                  .cons ⟨r, rfl, hid⟩ hall⟩
              · right
                refine ⟨n + 1, e, outcome_bind_error.mpr (.inr ⟨id, hr,
                  outcome_bind_error.mpr (.inl hfail)⟩), ?_, ?_⟩
                · intro k hk
                  cases k with
                  | zero => exact ⟨r, id, rfl, hid⟩
                  | succ k => exact hbefore k (Nat.lt_of_succ_lt_succ hk)
                · rw [show slot + (n + 1) = slot + 1 + n by omega]
                  exact hat

theorem resolveSlots_forall₂ (hd : d.Sound) {block : String} {slot : Nat}
    {xs : List (Option Reference)} {ids : List SignalId} (h : d.resolveSlots block slot xs = .ok ids) :
    List.Forall₂ (fun x id => ∃ r, x = some r ∧ d.Denotes r id) xs ids := by
  rcases resolveSlots_cases hd block slot xs with ⟨ids', hids, hall⟩ | ⟨n, e, hfail, -⟩
  · cases h.symm.trans hids
    exact hall
  · cases h.symm.trans hfail

end Denotes

theorem listSlots_of_inRange (block : BlockId) (slot : Nat) {ids : List SignalId}
    (signals : Array (Signal α)) (h : ∀ id ∈ ids, id.index < signals.size) :
    ∃ signals', listSlots block slot ids signals = .ok signals' := by
  induction ids generalizing slot signals with
  | nil => exact ⟨signals, rfl⟩
  | cons id ids ih =>
      obtain ⟨s, hs⟩ : ∃ s, signals[id.index]? = some s :=
        ⟨_, Array.getElem?_eq_getElem (h id List.mem_cons_self)⟩
      obtain ⟨signals', hrest⟩ := ih (slot + 1)
        (signals.setIfInBounds id.index { s with sinks := s.sinks ++ [⟨block, slot⟩] })
        fun j hj => by
          rw [Array.size_setIfInBounds]
          exact h j (List.mem_cons_of_mem _ hj)
      exact ⟨signals', outcome_bind_ok.mpr ⟨s, entry_eq_ok.mpr hs, hrest⟩⟩

theorem claimOutput_of_open {m : Model α} (block : BlockId) (name : String) {id : SignalId}
    {s : Signal α} (hs : m.signal? id = some s) (hopen : s.source = none) :
    claimOutput m block name id = .ok { m with
      signals := m.signals.setIfInBounds id.index { s with source := some ⟨block, 0⟩ } } := by
  refine outcome_bind_ok.mpr ⟨s, entry_eq_ok.mpr hs, ?_⟩
  rw [hopen]
  rfl

theorem claimOutput_of_source {m : Model α} (block : BlockId) (name : String) {id : SignalId}
    {s : Signal α} (hs : m.signal? id = some s) {e : Endpoint} (he : s.source = some e) {b : Block α}
    (hb : m.block? e.block = some b) :
    claimOutput m block name id = .error (.duplicateSource s.varId b.name name) := by
  refine outcome_bind_error.mpr (.inr ⟨s, entry_eq_ok.mpr hs, ?_⟩)
  rw [he]
  exact outcome_bind_error.mpr (.inr ⟨b, entry_eq_ok.mpr hb, rfl⟩)

theorem Denotes.nameOf? {r : Reference} {id : SignalId} {s : Signal α} (h : d.Denotes r id)
    (hd : d.Sound) (hs : d.signals[id.index]? = some s) : d.nameOf? r = some s.varId :=
  nameOf?_of_resolve hd (show d.resolve "" r = .ok id from (resolve_eq_ok hd).mpr h) hs

theorem Ties.outputName? {b : DraftBlock α} {id : SignalId} {s : Signal α} (h : d.Ties b .output id)
    (hd : d.Sound) (hs : d.signals[id.index]? = some s) : d.outputName? b = some s.varId := by
  obtain ⟨r, hr, hid⟩ := h
  exact Option.bind_eq_some_iff.mpr ⟨r, hr, hid.nameOf? hd hs⟩

section Wiring

variable [Scalar α] {done : List (DraftBlock α)} {m : Model α} {b₀ : DraftBlock α} {b : Block α}
  {e : ModelError α}

theorem Resolved.signal?_eq_some (hd : d.Sound) (h : d.Resolved b₀ b) (port : Port) (id : SignalId) :
    port.signal? b = some id ↔ d.Ties b₀ port id := by
  cases port with
  | slot n =>
      obtain ⟨hlength, hall⟩ := List.forall₂_iff_get.mp (resolveSlots_forall₂ hd h.inputs)
      constructor
      · intro hn
        obtain ⟨hlt, rfl⟩ := List.getElem?_eq_some_iff.mp hn
        obtain ⟨r, hr, hid⟩ := hall n (hlength ▸ hlt) hlt
        refine ⟨r, ?_, hid⟩
        rw [Port.held?, List.getElem?_eq_getElem (hlength ▸ hlt)]
        exact hr
      · rintro ⟨r, hr, hid⟩
        have hn := Option.join_eq_some_iff.mp hr
        obtain ⟨hlt, hget⟩ := List.getElem?_eq_some_iff.mp hn
        obtain ⟨r', hr', hid'⟩ := hall n hlt (hlength ▸ hlt)
        cases hr'.symm.trans hget
        rw [hid.unique hd hid']
        exact List.getElem?_eq_getElem (hlength ▸ hlt)
  | output =>
      have houtput := h.output
      rw [Port.signal?, Ties, Port.held?]
      cases hr : b₀.output with
      | none =>
          rw [hr] at houtput
          have hnone : b.output = none := (Except.ok.inj houtput).symm
          rw [hnone]
          constructor
          · rintro ⟨⟩
          · rintro ⟨r, ⟨⟩, -⟩
      | some r =>
          rw [hr] at houtput
          obtain ⟨i, hi, hsome⟩ := outcome_map_ok.mp houtput
          have hdenotes := (resolve_eq_ok hd).mp hi
          rw [← hsome]
          constructor
          · rintro ⟨⟩
            exact ⟨r, rfl, hdenotes⟩
          · rintro ⟨r', ⟨⟩, hid⟩
            rw [hid.unique hd hdenotes]

omit [Scalar α] in
theorem not_portFault_slot {n : Nat} {id : SignalId} (h : d.Ties b₀ (.slot n) id) :
    ¬ d.PortFault done b₀ (.slot n) e := by
  obtain ⟨r, hr, hid⟩ := h
  intro hfault
  cases hfault with
  | unbound hopen =>
      rw [Port.held?, hopen] at hr
      cases hr
  | undeclared hv hundeclared =>
      cases hr.symm.trans hv
      exact hundeclared hid.declared

omit [Scalar α] in
/-- A block whose slots have all been resolved can be at fault at its output only. -/
theorem not_portFault_slots (hd : d.Sound) {name : String} {slot : Nat} {ids : List SignalId}
    (hids : d.resolveSlots name slot b₀.inputs = .ok ids) (n : Nat) :
    ¬ d.PortFault done b₀ (.slot n) e := by
  obtain ⟨hlength, hall⟩ := List.forall₂_iff_get.mp (resolveSlots_forall₂ hd hids)
  by_cases hn : n < b₀.inputs.length
  · obtain ⟨r, hr, hid⟩ := hall n hn (hlength ▸ hn)
    refine not_portFault_slot ⟨r, ?_, hid⟩
    rw [Port.held?, List.getElem?_eq_getElem hn]
    exact hr
  · have hnone := List.getElem?_eq_none (Nat.not_lt.mp hn)
    intro hfault
    cases hfault with
    | unbound hopen => cases hnone.symm.trans hopen
    | undeclared hv _ =>
        rw [Port.held?, hnone] at hv
        cases hv

/-- The output of a block is connected once its slots are, or it is at fault. -/
theorem wireBlock_of_slots (hd : d.Sound) (hw : d.Wired done m) {ids : List SignalId}
    {signals' : Array (Signal α)} (hids : d.resolveSlots b₀.name 0 b₀.inputs = .ok ids)
    (hlist : listSlots ⟨m.blocks.size⟩ 0 ids m.signals = .ok signals')
    (houtput : ∀ id, b₀.output = some (.signal id) → id.index < d.signals.size) :
    (∃ m', d.wireBlock m b₀ = .ok m' ∧ ∀ e, ¬ d.PortFault done b₀ .output e) ∨
      ∃ e, d.wireBlock m b₀ = .error e ∧ d.PortFault done b₀ .output e := by
  obtain ⟨-, hsignals⟩ := listSlots_ok hlist
  cases hout : b₀.output with
  | none =>
      left
      have hmap : b₀.output.mapM (d.resolve b₀.name) = .ok none := by
        rw [hout]
        rfl
      refine ⟨_, outcome_bind_ok.mpr ⟨ids, hids, outcome_bind_ok.mpr ⟨signals', hlist,
        outcome_bind_ok.mpr ⟨none, hmap, rfl⟩⟩⟩, ?_⟩
      intro e hfault
      cases hfault with
      | undeclared hv _ => cases hout.symm.trans hv
      | taken _ _ hsecond _ =>
          obtain ⟨r, hr, -⟩ := hsecond
          cases hout.symm.trans hr
  | some r =>
      cases hr : d.resolve b₀.name r with
      | error e =>
          right
          have hmap : b₀.output.mapM (d.resolve b₀.name) = .error e := by
            rw [hout]
            exact outcome_bind_error.mpr (.inl hr)
          obtain ⟨v, rfl, hundeclared, rfl⟩ := resolve_eq_error.mp hr
          exact ⟨_, outcome_bind_error.mpr (.inr ⟨ids, hids, outcome_bind_error.mpr
            (.inr ⟨signals', hlist, outcome_bind_error.mpr (.inl hmap)⟩)⟩), .undeclared hout hundeclared⟩
      | ok id =>
          have hid := (resolve_eq_ok hd).mp hr
          have hmap : b₀.output.mapM (d.resolve b₀.name) = .ok (some id) := by
            rw [hout]
            exact outcome_map_ok.mpr ⟨id, hr, rfl⟩
          obtain ⟨s, hs⟩ : ∃ s, d.signals[id.index]? = some s := by
            refine ⟨_, Array.getElem?_eq_getElem (hid.inRange fun i hi => houtput i ?_)⟩
            rw [hout, hi]
          obtain ⟨t, ht, rfl⟩ := hw.exists_signal hs
          -- The slots of the block have been listed; the source is as before.
          have hlisted : ({ m with signals := signals' } : Model α).signal? id = some { t with
              sinks := t.sinks ++ readingSlots ⟨m.blocks.size⟩ id 0 ids } := by
            rw [Model.signal?, hsignals, Array.getElem?_mapIdx,
              show m.signals[id.index]? = some t from ht]
            rfl
          cases hsource : t.source with
          | none =>
              left
              have hclaim := claimOutput_of_open ⟨m.blocks.size⟩ b₀.name hlisted hsource
              refine ⟨_, outcome_bind_ok.mpr ⟨ids, hids, outcome_bind_ok.mpr ⟨signals', hlist,
                outcome_bind_ok.mpr ⟨some id, hmap, outcome_bind_ok.mpr ⟨_, hclaim, rfl⟩⟩⟩⟩, ?_⟩
              intro e hfault
              cases hfault with
              | undeclared hv hundeclared =>
                  cases hout.symm.trans hv
                  exact hundeclared hid.declared
              | @taken i b₁ id' _ hfirst hties hsecond _ =>
                  obtain ⟨r', hr', hid'⟩ := hsecond
                  cases hout.symm.trans hr'
                  cases hid.unique hd hid'
                  obtain ⟨c, hc, hres⟩ := hw.blocks i b₁ hfirst
                  have hsome := (hw.edges.source id t ht ⟨⟨i⟩, 0⟩).mpr
                    ⟨rfl, c, hc, (hres.signal?_eq_some hd .output id).mpr hties⟩
                  cases hsource.symm.trans hsome
          | some first =>
              right
              obtain ⟨-, c, hc, hcout⟩ := (hw.edges.source id t ht first).mp hsource
              obtain ⟨b₁, hb₁, hres⟩ := hw.block? hc
              have hclaim := claimOutput_of_source ⟨m.blocks.size⟩ b₀.name hlisted hsource hc
              rw [hres.name] at hclaim
              have hfault : d.PortFault done b₀ .output
                  (.duplicateSource t.unwired.varId b₁.name b₀.name) :=
                .taken hb₁ ((hres.signal?_eq_some hd .output id).mp hcout) ⟨r, hout, hid⟩ hs
              exact ⟨_, outcome_bind_error.mpr (.inr ⟨ids, hids, outcome_bind_error.mpr
                (.inr ⟨signals', hlist, outcome_bind_error.mpr (.inr ⟨some id, hmap,
                  outcome_bind_error.mpr (.inl hclaim)⟩)⟩)⟩), hfault⟩

/-- A block is wired and none of its ports is at fault, or the first of those that are decides. -/
theorem wireBlock_cases (hd : d.Sound) (hw : d.Wired done m) {i : Nat} (hb : d.blocks[i]? = some b₀) :
    (∃ m', d.wireBlock m b₀ = .ok m' ∧ ∀ port e, ¬ d.PortFault done b₀ port e) ∨
      ∃ port e, d.wireBlock m b₀ = .error e ∧ d.PortFault done b₀ port e ∧
        ∀ q e', q.Before port → ¬ d.PortFault done b₀ q e' := by
  rcases resolveSlots_cases hd b₀.name 0 b₀.inputs with ⟨ids, hids, hall⟩ | ⟨n, e, hfail, hbefore, hat⟩
  · have hrange : ∀ id ∈ ids, id.index < m.signals.size := by
      intro id hid
      obtain ⟨x, hx, r, rfl, hdenotes⟩ := forall₂_exists hall.flip id hid
      rw [hw.signalCount]
      exact hdenotes.inRange fun j hj => hd.inputs i b₀ hb j (hj ▸ hx)
    obtain ⟨signals', hlist⟩ := listSlots_of_inRange ⟨m.blocks.size⟩ 0 m.signals hrange
    rcases wireBlock_of_slots hd hw hids hlist (hd.outputs i b₀ hb) with ⟨m', hok, hnone⟩ | ⟨e, hfail, hfault⟩
    · refine .inl ⟨m', hok, fun port e => ?_⟩
      cases port with
      | slot n => exact not_portFault_slots hd hids n
      | output => exact hnone e
    · refine .inr ⟨.output, e, hfail, hfault, fun q e' hq => ?_⟩
      cases q with
      | slot n => exact not_portFault_slots hd hids n
      | output => exact absurd hq id
  · refine .inr ⟨.slot n, e, outcome_bind_error.mpr (.inl hfail), ?_, fun q e' hq => ?_⟩
    · rcases hat with ⟨hopen, rfl⟩ | ⟨v, hv, hundeclared, rfl⟩
      · rw [Nat.zero_add]
        exact .unbound hopen
      · refine .undeclared ?_ hundeclared
        rw [Port.held?, hv]
        rfl
    · cases q with
      | slot k =>
          obtain ⟨r, id, hk, hid⟩ := hbefore k hq
          refine not_portFault_slot ⟨r, ?_, hid⟩
          rw [Port.held?, hk]
          rfl
      | output => exact absurd hq id

/-- Wiring the blocks that are left, where the ports of those before are not at fault. -/
theorem Wired.foldlM_cases (hd : d.Sound) (hw : d.Wired done m) {rest : List (DraftBlock α)}
    (hblocks : done ++ rest = d.blocks.toList)
    (hbefore : ∀ terminal e, terminal.block.index < done.length → ¬ d.FaultAt terminal e) :
    (∃ m', rest.foldlM d.wireBlock m = .ok m' ∧ ∀ terminal e, ¬ d.FaultAt terminal e) ∨
      ∃ terminal e, rest.foldlM d.wireBlock m = .error e ∧ d.FirstFault terminal e := by
  induction rest generalizing done m with
  | nil =>
      refine .inl ⟨m, rfl, fun terminal e hfault => ?_⟩
      obtain ⟨b, hb, -⟩ := id hfault
      rw [← Array.getElem?_toList, ← hblocks, List.append_nil] at hb
      exact hbefore terminal e (List.getElem?_eq_some_iff.mp hb).1 hfault
  | cons b₀ rest ih =>
      have hb : d.blocks[done.length]? = some b₀ := by
        rw [← Array.getElem?_toList, ← hblocks, List.getElem?_append_right (Nat.le_refl _), Nat.sub_self]
        rfl
      have hat : ∀ port e, d.FaultAt ⟨⟨done.length⟩, port⟩ e ↔ d.PortFault done b₀ port e := by
        intro port e
        rw [FaultAt, ← hblocks, List.take_left]
        constructor
        · rintro ⟨b, hb', hfault⟩
          cases hb.symm.trans hb'
          exact hfault
        · exact fun hfault => ⟨b₀, hb, hfault⟩
      rw [List.foldlM_cons]
      rcases wireBlock_cases hd hw hb with ⟨m₁, hstep, hnone⟩ | ⟨port, e, hfail, hfault, hfirst⟩
      · rw [hstep, outcome_ok_bind]
        refine ih (hw.step hstep) (by rw [← hblocks, List.append_assoc]; rfl) ?_
        rintro ⟨⟨i⟩, port⟩ e hi hfault
        rw [List.length_append, List.length_singleton] at hi
        rcases Nat.lt_succ_iff_lt_or_eq.mp hi with hlt | rfl
        · exact hbefore _ e hlt hfault
        · exact hnone port e ((hat port e).mp hfault)
      · right
        refine ⟨⟨⟨done.length⟩, port⟩, e, by rw [hfail]; rfl, (hat port e).mpr hfault, ?_⟩
        rintro ⟨⟨i⟩, q⟩ e' hq hfault'
        rcases hq with hlt | ⟨hsame, hq⟩
        · exact hbefore _ e' hlt hfault'
        · cases hsame
          exact hfirst q e' hq ((hat q e').mp hfault')

/-- A draft is wired and none of its terminals is at fault, or the first of those that are decides. -/
theorem wire_cases (hd : d.Sound) :
    (∃ m, d.wire = .ok m ∧ ∀ terminal e, ¬ d.FaultAt terminal e) ∨
      ∃ terminal e, d.wire = .error e ∧ d.FirstFault terminal e :=
  (Wired.start hd).foldlM_cases hd rfl fun _ _ hlt => absurd hlt (Nat.not_lt_zero _)

end Wiring

end Draft

end BlockDiagram
