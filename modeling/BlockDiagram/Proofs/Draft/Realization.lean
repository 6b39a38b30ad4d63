import BlockDiagram.Proofs.Draft.Production
import BlockDiagram.Proofs.Model.Holder
import BlockDiagram.Proofs.Model.Reachable
import BlockDiagram.Proofs.Scalar.Limits
/-! Realization: how the model that is built of a draft stands for it. Every block has kept its kind,
and reads the signals of its variables where these are held. -/

namespace BlockDiagram

open Call

variable {α : Type}

/-- A signal of the library's own making has no limits. -/
theorem Signal.derive_needsLimiter [Scalar α] [Unbounded α] (v : String) :
    (Signal.derive v : Signal α).needsLimiter = false := by
  simp only [needsLimiter, derive, declare, Unbounded.bottom_not_finite, Unbounded.top_not_finite,
    Bool.or_false, Bool.and_false]

namespace Draft

variable {d : Draft α}

theorem signalId?_eq_some (hd : d.Sound) {v : String} {id : SignalId} :
    d.signalId? v = some id ↔ ∃ s, d.signals[id.index]? = some s ∧ s.varId = v := by
  rw [← findIdx_eq_some_iff hd.distinct, signalId?]
  constructor
  · intro h
    obtain ⟨i, hi, rfl⟩ := Option.map_eq_some_iff.mp h
    exact hi
  · intro h
    rw [h]
    rfl

theorem resolve_ok (hd : d.Sound) {block v : String} {r : Reference} {id : SignalId}
    (h : d.resolve block r = .ok id) (hname : d.nameOf? r = some v) : d.signalId? v = some id := by
  rcases r with i | w
  · cases h
    obtain ⟨s, hs, hv⟩ := Option.map_eq_some_iff.mp hname
    exact (signalId?_eq_some hd).mpr ⟨s, hs, hv⟩
  · cases hname
    rw [resolve] at h
    split at h
    · cases h
      assumption
    · cases h

theorem nameOf?_of_resolve (hd : d.Sound) {block : String} {r : Reference} {id : SignalId} {s : Signal α}
    (h : d.resolve block r = .ok id) (hs : d.signals[id.index]? = some s) :
    d.nameOf? r = some s.varId := by
  rcases r with i | w
  · cases h
    exact Option.map_eq_some_iff.mpr ⟨s, hs, rfl⟩
  · rw [resolve] at h
    split at h
    · rename_i hid
      cases h
      obtain ⟨t, ht, rfl⟩ := (signalId?_eq_some hd).mp hid
      cases hs.symm.trans ht
      rfl
    · cases h

/-- A block of the model produces the variable that its block in the draft names. -/
theorem Resolved.outputName? [Arithmetic α] (hd : d.Sound) {b₀ : DraftBlock α} {b : Block α}
    (h : d.Resolved b₀ b) {id : SignalId} (hout : b.output = some id) {s : Signal α}
    (hs : d.signals[id.index]? = some s) : d.outputName? b₀ = some s.varId := by
  have houtput := h.output
  rw [hout] at houtput
  cases hr : b₀.output with
  | none =>
      rw [hr] at houtput
      cases houtput
  | some r =>
      rw [hr] at houtput
      obtain ⟨x, hx, hsome⟩ := outcome_map_ok.mp houtput
      cases hsome
      rw [Draft.outputName?, hr, Option.bind_some]
      exact nameOf?_of_resolve hd hx hs

theorem resolveSlots_ok (hd : d.Sound) {block : String} {slot : Nat} {ws : List String}
    {ids : List SignalId} (h : d.resolveSlots block slot (slots ws) = .ok ids) :
    List.Forall₂ (fun w id => d.signalId? w = some id) ws ids := by
  induction ws generalizing slot ids with
  | nil =>
      cases h
      exact .nil
  | cons w ws ih =>
      obtain ⟨id, hid, hrest⟩ := outcome_bind_ok.mp h
      obtain ⟨rest, hws, hpure⟩ := outcome_bind_ok.mp hrest
      cases hpure
      exact .cons (resolve_ok hd hid rfl) (ih hws)

variable [Scalar α]

/-- The model `f` has been made of the draft: its blocks are those of the draft and some more, and read
each variable at its holder. -/
structure Realized (d : Draft α) (f : Model α) (holder : SignalId → SignalId) : Prop where
  grids : f.breakpoints = d.breakpoints ∧ f.tables = d.tables
  distinct : f.Distinct
  sourced : ∀ id s, f.signal? id = some s → ∃ e, s.source = some e
  blocks : ∀ k ws v, d.Produces k ws v → ∃ p c id ids, f.block? p = some c ∧ c.kind = k ∧
    c.inputs = ids.map holder ∧ c.output = some id ∧ d.signalId? v = some id ∧
    List.Forall₂ (fun w id => d.signalId? w = some id) ws ids
  named : ∀ id s, d.signals[id.index]? = some s →
    ∃ t, f.signal? (holder id) = some t ∧ t.varId = s.varId
  free : ∀ id s, d.signals[id.index]? = some s → s.needsLimiter = false → holder id = id
  limited : ∀ id s, d.signals[id.index]? = some s → s.needsLimiter = true →
    ∃ p c, f.block? p = some c ∧ c.kind = .limiterBetween s.lower s.upper ∧ c.inputs = [id] ∧
      c.output = some (holder id)
  fed : ∀ id s, d.signals[id.index]? = some s → ¬ d.Produced s.varId →
    ∃ p c, f.block? p = some c ∧ c.kind = (s.feeder id).kind ∧ c.output = some id

theorem Wired.exists_signal {done : List (DraftBlock α)} {m : Model α} (h : d.Wired done m)
    {id : SignalId} {s : Signal α} (hs : d.signals[id.index]? = some s) :
    ∃ t, m.signal? id = some t ∧ t.unwired = s := by
  have hlt := (Array.getElem?_eq_some_iff.mp hs).1
  rw [← h.signalCount] at hlt
  obtain ⟨t, ht⟩ := Model.exists_signal hlt
  exact ⟨t, ht, Option.some.inj ((h.signal? ht).symm.trans hs)⟩

theorem Wired.distinct (hd : d.Sound) {done : List (DraftBlock α)} {m : Model α}
    (h : d.Wired done m) : m.Distinct := by
  intro i j s t hs ht heq
  have hij := hd.distinct _ _ _ _ (h.signal? hs) (h.signal? ht) heq
  exact Handle.eq_mk hij

/-- A variable without producer in the draft has none once the draft is wired. -/
theorem Wired.source_eq_none (hd : d.Sound) {m : Model α} (h : d.Wired d.blocks.toList m)
    {id : SignalId} {t : Signal α} (ht : m.signal? id = some t) (hopen : ¬ d.Produced t.varId) :
    t.source = none := by
  cases he : t.source with
  | none => rfl
  | some e =>
      exfalso
      obtain ⟨-, b, hb, hout⟩ := (h.edges.source id t ht e).mp he
      obtain ⟨b₀, hb₀, hres⟩ := h.block? hb
      obtain ⟨r, hr, hname⟩ :=
        Option.bind_eq_some_iff.mp (hres.outputName? hd hout (h.signal? ht))
      rw [Array.getElem?_toList] at hb₀
      exact hopen ⟨_, b₀, r, hb₀, hr, hname⟩

section Puts

variable {m f : Model α} {k : BlockKind α} {ws : List String} {v : String} {i : Nat}

/-- What a block of the draft computes from what, told of the block that it has become. -/
theorem Wired.puts (hd : d.Sound) (hm : d.Wired d.blocks.toList m) (h : d.Puts k ws v i) :
    ∃ c id, m.block? ⟨i⟩ = some c ∧ c.kind = k ∧ c.output = some id ∧ d.signalId? v = some id ∧
      List.Forall₂ (fun w id => d.signalId? w = some id) ws c.inputs := by
  obtain ⟨b₀, r, hb₀, rfl, hinputs, hr, hname⟩ := h
  obtain ⟨c, hc, hres⟩ := hm.blocks i b₀ (by rw [Array.getElem?_toList]; exact hb₀)
  have houtput := hres.output
  rw [hr] at houtput
  obtain ⟨id, hid, hsome⟩ := outcome_map_ok.mp houtput
  have hreads := hres.inputs
  rw [hinputs] at hreads
  exact ⟨c, id, hc, hres.kind, hsome.symm, resolve_ok hd hid hname, resolveSlots_ok hd hreads⟩

/-- The same once the model is complete. -/
theorem Wired.completed_puts {holder : SignalId → SignalId} (hd : d.Sound)
    (hm : d.Wired d.blocks.toList m) (hf : m.Completed f holder) (h : d.Puts k ws v i) :
    ∃ c id ids, f.block? ⟨i⟩ = some c ∧ c.kind = k ∧ c.inputs = ids.map holder ∧
      c.output = some id ∧ d.signalId? v = some id ∧
      List.Forall₂ (fun w id => d.signalId? w = some id) ws ids := by
  obtain ⟨b, id, hb, hkind, hout, hid, hids⟩ := hm.puts hd h
  obtain ⟨c, hc, hkind', hslots, hout'⟩ := hf.blocks ⟨i⟩ b hb
  exact ⟨c, id, b.inputs, hc, hkind'.trans hkind, hslots, hout'.trans hout, hid, hids⟩

/-- A variable of the library's own making is held by its signal. -/
theorem Wired.holder_of_derived [Unbounded α] {holder : SignalId → SignalId} (hd : d.Sound)
    (hm : d.Wired d.blocks.toList m) (hf : m.Completed f holder) (hv : d.Derived v) {id : SignalId}
    (hid : d.signalId? v = some id) : holder id = id := by
  obtain ⟨n, hn⟩ := hv
  have hid' : d.signalId? v = some ⟨n⟩ := (signalId?_eq_some hd).mpr ⟨_, hn, rfl⟩
  cases hid.symm.trans hid'
  have hn : d.signals[(⟨n⟩ : SignalId).index]? = some (Signal.derive v) := hn
  obtain ⟨t, ht, hsame⟩ := hm.exists_signal hn
  refine hf.free ⟨n⟩ t ht ?_
  rw [← t.needsLimiter_unwired, hsame]
  exact Signal.derive_needsLimiter v

end Puts

theorem realized_of_built (hd : d.Sound) {m₀ f : Model α} (hbuild : d.build = .ok m₀)
    (hbare : f.bare = m₀.bare) : ∃ holder, d.Realized f holder := by
  obtain ⟨w, -, hw, -, hext, hcomplete⟩ := build_ok hd hbuild
  obtain ⟨holder, hholder⟩ := Model.exists_holder hext hcomplete
  have hf := hholder.of_bare hbare
  have hgrids := Model.grids_of_extends hext
  obtain ⟨hsets, htables, -⟩ := hw.fresh
  refine ⟨holder, ⟨?_, ?_⟩, ?_, ?_, ?_, ?_, ?_, ?_, ?_⟩
  · exact ((Model.breakpoints_of_bare hbare).trans hgrids.1).trans hsets
  · exact ((Model.tables_of_bare hbare).trans hgrids.2).trans htables
  · exact ((hw.distinct hd).extends hext).of_bare hbare
  · intro id s hs
    rw [Model.signal?_of_bare hbare] at hs
    exact hcomplete.fed id s hs
  · rintro k ws v ⟨i, hputs⟩
    obtain ⟨c, id, ids, hc, hrest⟩ := hw.completed_puts hd hf hputs
    exact ⟨⟨i⟩, c, id, ids, hc, hrest⟩
  · intro id s hs
    obtain ⟨t, ht, rfl⟩ := hw.exists_signal hs
    exact hf.named id t ht
  · intro id s hs hfree
    obtain ⟨t, ht, rfl⟩ := hw.exists_signal hs
    exact hf.free id t ht hfree
  · intro id s hs hneed
    obtain ⟨t, ht, rfl⟩ := hw.exists_signal hs
    exact hf.limited id t ht hneed
  · intro id s hs hopen
    obtain ⟨t, ht, rfl⟩ := hw.exists_signal hs
    exact hf.fed id t ht (hw.source_eq_none hd ht hopen)

end Draft

end BlockDiagram
