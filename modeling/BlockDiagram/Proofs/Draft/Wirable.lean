import BlockDiagram.Proofs.Draft.Closed
import BlockDiagram.Proofs.Draft.Faults
/-! Wirable drafts: a closed draft can be wired unless two of its blocks produce one variable, and then
it fails for that reason. -/

namespace BlockDiagram

open Call

namespace Draft

variable {α : Type} {d : Draft α}

/-- All that can be at fault in a closed draft is a variable that two blocks produce. -/
theorem Closed.twice_of_fault (h : d.Closed) (hd : d.Sound) {terminal : Terminal} {e : ModelError α}
    (hfault : d.FaultAt terminal e) :
    ∃ v first second, e = .duplicateSource v first second ∧ 1 < d.outputNames.count v := by
  obtain ⟨⟨i⟩, port⟩ := terminal
  obtain ⟨b, hb, hfault⟩ := hfault
  cases hfault with
  | unbound hopen =>
      obtain ⟨r, hr, -⟩ := h.inputs i b hb none (List.mem_of_getElem? hopen)
      cases hr
  | @undeclared _ v hv hundeclared =>
      have hresolves : d.Resolves (.variable v) := by
        cases port with
        | slot n =>
            obtain ⟨r, hr, hres⟩ := h.inputs i b hb _
              (List.mem_of_getElem? (Option.join_eq_some_iff.mp hv))
            cases hr
            exact hres
        | output => exact h.outputs i b hb _ hv
      obtain ⟨w, hw, hname⟩ := hresolves
      cases hname
      exact absurd hw hundeclared
  | @taken j b₁ id s hfirst hties₁ hties hs =>
      refine ⟨_, _, _, rfl, ?_⟩
      change (d.blocks.toList.take i)[j]? = some b₁ at hfirst
      obtain ⟨hi, hget⟩ := Array.getElem?_eq_some_iff.mp hb
      have hsplit : d.blocks.toList = d.blocks.toList.take i ++ b :: d.blocks.toList.drop (i + 1) := by
        rw [← hget, ← Array.getElem_toList, List.getElem_cons_drop, List.take_append_drop]
      have hdone := List.count_pos_iff.mpr (List.mem_filterMap.mpr
        ⟨b₁, List.mem_of_getElem? hfirst, hties₁.outputName? hd hs⟩)
      rw [outputNames, hsplit, List.filterMap_append, List.filterMap_cons_some (hties.outputName? hd hs),
        List.count_append, List.count_cons_self]
      omega

variable [Scalar α] {m : Model α}

/-- In a model that has been wired, every variable has one producer at most. -/
theorem Wired.outputNames_nodup (hd : d.Sound) (hw : d.Wired d.blocks.toList m) :
    d.outputNames.Nodup := by
  rw [outputNames, List.Nodup, List.pairwise_filterMap, List.pairwise_iff_getElem]
  intro i j hi hj hij v hv w hw' heq
  subst heq
  have hproducer : ∀ k (hk : k < d.blocks.toList.length), d.outputName? d.blocks.toList[k] = some v →
      ∃ c id, m.block? ⟨k⟩ = some c ∧ c.output = some id ∧ d.signalId? v = some id := by
    intro k hk hname
    obtain ⟨c, hc, hres⟩ := hw.blocks k _ (List.getElem?_eq_getElem hk)
    obtain ⟨r, hr, hrname⟩ := Option.bind_eq_some_iff.mp hname
    have houtput := hres.output
    rw [hr] at houtput
    obtain ⟨id, hid, hsome⟩ := outcome_map_ok.mp houtput
    exact ⟨c, id, hc, hsome.symm, resolve_ok hd hid hrname⟩
  obtain ⟨b, id, hb, hbout, hid⟩ := hproducer i hi hv
  obtain ⟨c, id', hc, hcout, hid'⟩ := hproducer j hj hw'
  cases hid.symm.trans hid'
  have hsame := hw.edges.output_unique hb hc hbout hcout
  cases hsame
  exact Nat.lt_irrefl _ hij

/-- A closed draft can be wired, unless two of its blocks produce one variable. -/
theorem wire_outcome (hd : d.Sound) (h : d.Closed) :
    (∃ m, d.wire = .ok m) ∧ (∀ v, d.outputNames.count v ≤ 1) ∨
      ∃ v first second, d.wire = .error (.duplicateSource v first second) ∧ 1 < d.outputNames.count v := by
  rcases wire_cases hd with ⟨m, hm, -⟩ | ⟨terminal, e, hfail, hfirst⟩
  · exact .inl ⟨⟨m, hm⟩, List.nodup_iff_count_le_one.mp ((wire_ok hd hm).outputNames_nodup hd)⟩
  · obtain ⟨v, first, second, rfl, hcount⟩ := h.twice_of_fault hd hfirst.fault
    exact .inr ⟨v, first, second, hfail, hcount⟩

end Draft

end BlockDiagram
