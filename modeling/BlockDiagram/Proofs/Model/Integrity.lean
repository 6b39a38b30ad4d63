import BlockDiagram.Proofs.Model.Agreement
import BlockDiagram.Proofs.Model.Caching
/-! Integrity: a complete model has no open end, so all that looking for defects can find is input
counts that do not fit; and the first of these is the one a search for an order complains of. -/

namespace BlockDiagram

open Call

namespace Model

variable {α : Type} {m m' : Model α}

theorem blocks_toList : m.blocks.toList = m.blockIds.filterMap m.block? := by
  have hblock : m.block? ∘ Handle.mk = fun i => m.blocks.toList[i]? := by
    funext i
    rw [Array.getElem?_toList]
    rfl
  rw [blockIds, Handle.all, List.filterMap_map, hblock, ← Array.length_toList]
  generalize m.blocks.toList = bs
  induction bs using List.reverseRecOn with
  | nil => rfl
  | append_singleton bs b ih =>
      rw [List.length_append, List.length_singleton, List.range_succ, List.filterMap_append]
      have hold : (List.range bs.length).filterMap (fun i => (bs ++ [b])[i]?) =
          (List.range bs.length).filterMap fun i => bs[i]? := by
        refine List.filterMap_congr fun i hi => ?_
        rw [List.getElem?_append_left (List.mem_range.mp hi)]
      rw [hold, ← ih]
      simp

/-- Nothing is missing at either end of a signal. -/
structure Connected (m : Model α) (id : SignalId) (s : Signal α) : Prop where
  produced : ∃ b, s.source = some ⟨b, 0⟩ ∧ m.Outputs b id
  consumed : ∃ e ∈ s.sinks, m.Binds e.block e.slot id
  shown : s.roles.output = true →
    ∃ e ∈ s.sinks, m.Binds e.block e.slot id ∧ m.kindOf? e.block = some .output

variable [Scalar α]

namespace Complete

theorem hasTap (h : m.Complete) {id : SignalId} {s : Signal α} (hs : m.signal? id = some s)
    (hneed : s.sinks = [] ∨ s.roles.output = true) : m.hasTap s = true := by
  have htapped := h.tapped id s hs
  by_contra hno
  rcases hneed with hnil | houtput
  · simp [needsTap, Model.hasTap, hnil] at htapped
  · simp [needsTap, hno, houtput] at htapped

theorem connected (h : m.Complete) (hedges : m.EdgesAgree) {id : SignalId} {s : Signal α}
    (hs : m.signal? id = some s) : m.Connected id s := by
  have hbinds : ∀ e ∈ s.sinks, m.Binds e.block e.slot id := fun e he => (hedges.sinks id s hs e).mp he
  constructor
  · obtain ⟨⟨b, slot⟩, he⟩ := h.fed id s hs
    obtain ⟨rfl, hout⟩ := (hedges.source id s hs _).mp he
    exact ⟨b, he, hout⟩
  · by_cases hnil : s.sinks = []
    · have htap := h.hasTap hs (.inl hnil)
      rw [Model.hasTap, hnil] at htap
      cases htap
    · obtain ⟨e, he⟩ := List.exists_mem_of_ne_nil _ hnil
      exact ⟨e, he, hbinds e he⟩
  · intro houtput
    obtain ⟨e, he, hkind⟩ := List.any_eq_true.mp (h.hasTap hs (.inr houtput))
    obtain ⟨k, hk, hkoutput⟩ := (Option.any_eq_true _ _).mp hkind
    refine ⟨e, he, hbinds e he, ?_⟩
    cases k with
    | output => exact hk
    | _ => cases hkoutput

theorem signalDefects_eq_nil (h : m.Complete) (hedges : m.EdgesAgree) {id : SignalId} {s : Signal α}
    (hs : m.signal? id = some s) : m.signalDefects id s = [] := by
  obtain ⟨⟨b, hsource, c, hc, hout⟩, ⟨e, he, -⟩, -⟩ := h.connected hedges hs
  have hsinks : s.sinks.isEmpty = false := by
    rw [← Bool.not_eq_true, List.isEmpty_iff]
    exact List.ne_nil_of_mem he
  rw [signalDefects, hedges.sinkDefects_eq_nil hs, hsinks, sourceDefects, hsource]
  simp [hc, hout]

/-- All defects of a complete model are input counts that do not fit. -/
theorem defects_eq (h : m.Complete) (hedges : m.EdgesAgree) :
    m.defects = (m.blockIds.filterMap m.block?).flatMap m.misfits := by
  have hsignals : (m.signals.toList.zipIdx.flatMap fun p => m.signalDefects ⟨p.2⟩ p.1) = [] := by
    rw [List.flatMap_eq_nil_iff]
    rintro ⟨s, i⟩ hi
    refine h.signalDefects_eq_nil hedges ?_
    rw [signal?, ← Array.getElem?_toList]
    exact List.mk_mem_zipIdx_iff_getElem?.mp hi
  have hblocks : (m.blocks.toList.zipIdx.flatMap fun p => m.blockDefects ⟨p.2⟩ p.1) =
      m.blocks.toList.zipIdx.flatMap fun p => m.misfits p.1 := by
    apply List.flatMap_congr
    rintro ⟨b, i⟩ hi
    refine hedges.blockDefects_eq ?_
    rw [block?, ← Array.getElem?_toList]
    exact List.mk_mem_zipIdx_iff_getElem?.mp hi
  have hdefects : m.defects = (m.signals.toList.zipIdx.flatMap fun p => m.signalDefects ⟨p.2⟩ p.1) ++
      m.blocks.toList.zipIdx.flatMap fun p => m.blockDefects ⟨p.2⟩ p.1 := rfl
  rw [hdefects, hsignals, hblocks, List.nil_append, ← blocks_toList]
  conv_rhs => rw [← List.zipIdx_map_fst 0 m.blocks.toList, List.flatMap_map]

theorem defects_eq_nil (h : m.Complete) (hedges : m.EdgesAgree) :
    m.defects = [] ↔ ∀ id b, m.block? id = some b → m.Fits b := by
  rw [h.defects_eq hedges, List.flatMap_eq_nil_iff]
  constructor
  · intro hnil id b hb
    refine misfits_eq_nil.mp (hnil b (List.mem_filterMap.mpr ⟨id, ?_, hb⟩))
    exact Handle.mem_all.mpr (block?_lt hb)
  · intro hfits b hb
    obtain ⟨id, -, hid⟩ := List.mem_filterMap.mp hb
    exact misfits_eq_nil.mpr (hfits id b hid)

/-- The first defect is the first block that does not fit. -/
theorem first_defect (h : m.Complete) (hedges : m.EdgesAgree) {id : BlockId} {b : Block α}
    (hmisfit : m.misfit? = some id) (hb : m.block? id = some b) :
    m.defects.head? = some (.arity b.name (b.kind.arity m.tables) b.inputs.length) := by
  obtain ⟨hid, pre, post, hsplit, hpre⟩ := List.find?_eq_some_iff_append.mp hmisfit
  have hbad : ¬ m.Fits b := by simpa [hb] using hid
  have hgood : (pre.filterMap m.block?).flatMap m.misfits = [] := by
    refine List.flatMap_eq_nil_iff.mpr fun c hc => ?_
    obtain ⟨j, hj, hjc⟩ := List.mem_filterMap.mp hc
    refine misfits_eq_nil.mpr ?_
    simpa [hjc] using hpre j hj
  rw [h.defects_eq hedges, hsplit, List.filterMap_append, List.flatMap_append, hgood,
    List.nil_append, List.filterMap_cons_some hb, List.flatMap_cons, misfits, if_neg hbad]
  rfl

theorem defects_arity (h : m.Complete) (hedges : m.EdgesAgree) {x : Defect} (hx : x ∈ m.defects) :
    ∃ b a n, x = .arity b a n := by
  rw [h.defects_eq hedges] at hx
  obtain ⟨b, -, hb⟩ := List.mem_flatMap.mp hx
  exact ⟨_, _, _, eq_of_mem_misfits hb⟩

end Complete

/-- A complete model, with an order only if it has been found for the model as it is. -/
structure Finished (m : Model α) : Prop extends m.Current where
  complete : m.Complete

namespace Finished

theorem call (h : m.Finished) (c : ModelCall α) : (final c.run m).Finished :=
  ⟨keeps_current c m h.toCurrent, h.complete.of_bare (call_bare c h.sound h.complete)⟩

theorem calls (h : m.Finished) (hcalls : Relation.ReflTransGen Calls m m') : m'.Finished := by
  induction hcalls with
  | refl => exact h
  | tail _ hcall ih =>
      obtain ⟨c, rfl⟩ := hcall
      exact ih.call c

/-- A model with defects cannot be prepared: the search for an order names the first block that does
not fit. -/
theorem prepare_of_defects (h : m.Finished) (hdefects : m.defects ≠ []) :
    ∃ name tag a n m', prepare.run m = .error (.arity name tag a n) m' ∧
      m.defects.head? = some (.arity name a n) := by
  have hedges := h.sound.edges
  have hmisfit : m.misfit? ≠ none := by
    intro hnone
    exact hdefects ((h.complete.defects_eq_nil hedges).mpr (misfit?_eq_none.mp hnone))
  cases horder : m.order with
  | some l => exact absurd (misfit?_eq_none.mpr (h.cached l horder).fits) hmisfit
  | none =>
      have hends := h.sound.search_ends h.complete.fed horder
      generalize hrun : prepare.run m = r at hends
      cases hends with
      | misfit m' hid hb => exact ⟨_, _, _, _, m', rfl, h.complete.first_defect hedges hid hb⟩
      | loop _ hnone => exact absurd hnone hmisfit
      | order hnone => exact absurd hnone hmisfit

/-- What the search for an order says of input counts is the first defect. -/
theorem defects_of_prepare_arity (h : m.Finished) {name tag : String} {a : Arity} {n : Nat}
    (hrun : prepare.run m = .error (.arity name tag a n) m') :
    m.defects.head? = some (.arity name a n) := by
  have hdefects : m.defects ≠ [] := by
    intro hnil
    have hfits := (h.complete.defects_eq_nil h.sound.edges).mp hnil
    cases horder : m.order with
    | some l =>
        rw [prepare_run_of_some (by rw [horder]; rfl)] at hrun
        cases hrun
    | none =>
        have hends := h.sound.search_ends h.complete.fed horder
        rw [hrun] at hends
        cases hends with
        | misfit _ hid _ => rw [misfit?_eq_none.mpr hfits] at hid; cases hid
  obtain ⟨name', tag', a', n', m₁, hrun', hhead⟩ := h.prepare_of_defects hdefects
  cases hrun.symm.trans hrun'
  exact hhead

/-- A model that has been prepared has no defect. -/
theorem defects_of_prepare (h : m.Finished) (hrun : prepare.run m = .ok () m') : m'.defects = [] := by
  have hm' : m'.Finished := by
    have hcall := h.call .prepare
    rwa [ModelCall.run, final_of_ok hrun] at hcall
  have hnil : m.defects = [] := by
    by_contra hdefects
    obtain ⟨_, _, _, _, _, hrun', -⟩ := h.prepare_of_defects hdefects
    cases hrun.symm.trans hrun'
  refine (hm'.complete.defects_eq_nil hm'.sound.edges).mpr ?_
  have hbare := prepare_bare h.sound
  rw [final_of_ok hrun] at hbare
  exact all_fit_of_bare ((h.complete.defects_eq_nil h.sound.edges).mp hnil) hbare

end Finished

end Model

/-- Building completes whatever could be wired. -/
theorem Draft.finished_of_built {α : Type} [Scalar α] {d : Draft α} (hd : d.Sound) {m : Model α}
    (hm : d.build = .ok m) : m.Finished := by
  obtain ⟨m₀, -, hwired, -, hext, hcomplete⟩ := build_ok hd hm
  obtain ⟨hsound, -⟩ := built_sound_complete hd hm
  refine ⟨⟨hsound, fun l hl => ?_⟩, hcomplete⟩
  rw [Model.order_of_extends hext hwired.fresh.2.2.1] at hl
  cases hl

end BlockDiagram
