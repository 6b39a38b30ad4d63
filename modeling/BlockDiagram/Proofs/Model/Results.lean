import BlockDiagram.Proofs.Model.Names
import BlockDiagram.Proofs.Model.Settled
import BlockDiagram.Proofs.Model.Transparency
/-! Results: the output records that a model keeps from one evaluation to the next are those the present
wiring gives, though nothing but their number is ever compared. -/

namespace BlockDiagram

open Call

namespace Model

section Kept

variable {α : Type} {m : Model α}

/-- But for its value, the record is the one the wiring gives for an output block. -/
def Labels (m : Model α) (id : BlockId) (r : Record α) : Prop :=
  ∃ r', m.outputRecord? id = some r' ∧ r'.label = r.label

theorem Harvested.forall₂_labels (h : m.Harvested) (hlength : m.results.length = m.outputs.length) :
    List.Forall₂ m.Labels m.outputs m.results := by
  refine List.forall₂_iff_get.mpr ⟨hlength.symm, fun i hi hi' => ?_⟩
  exact h.labels i _ _ (List.getElem?_eq_getElem hi') (List.getElem?_eq_getElem hi)

theorem map_label_of_labels {ids : List BlockId} {rs : List (Record α)}
    (h : List.Forall₂ m.Labels ids rs) :
    (ids.filterMap m.outputRecord?).map Record.label = rs.map Record.label := by
  induction h with
  | nil => rfl
  | cons hr _ ih =>
      obtain ⟨r', hr', hlabel⟩ := hr
      rw [List.filterMap_cons_some hr', List.map_cons, List.map_cons, ih, hlabel]

/-- Whether the output records are kept ones or made anew, they are labelled by the present wiring. -/
theorem Harvested.outputVector_labels (h : m.Harvested) :
    m.outputVector.map Record.label = (m.outputs.filterMap m.outputRecord?).map Record.label := by
  rw [outputVector]
  split
  · rename_i hlength
    exact (map_label_of_labels (h.forall₂_labels hlength)).symm
  · rfl

end Kept

section Evaluated

variable {α : Type} [Scalar α] {m m' : Model α}

/-- An output block shows what it reads. -/
theorem Settled.value_of_output (h : Settled m m') {id : BlockId} {b : Block α}
    (hb : m'.block? id = some b) (hkind : b.kind = .output) {x : SignalId}
    (hx : b.inputs.head? = some x) : m'.valueOn? x = some b.value := by
  obtain ⟨xs, hxs, heval⟩ := h.solved id b hb (by rw [hkind]; rfl)
  rw [hkind] at heval
  obtain ⟨rest, hinputs⟩ := List.head?_eq_some_iff.mp hx
  rw [hinputs] at hxs
  obtain ⟨v, vs, hv, -, rfl⟩ := List.forall₂_cons_left_iff.mp hxs
  cases heval v
  exact hv

theorem Computes.reachable (h : m.Computes m') (hm : m.Reachable) : m'.Reachable := by
  rcases h with hrun | ⟨-, hrun⟩
  · have hcall := hm.call .cycle
    rwa [ModelCall.run, final_of_ok hrun] at hcall
  · have hcall := hm.call .prepare
    rwa [ModelCall.run, final_of_ok hrun] at hcall

/-- After an evaluation the records show the outputs, each with the value its variable has. -/
theorem Computes.results_show (h : m.Computes m') (hm : m.Reachable) :
    List.Forall₂ (fun id r => m'.outputRecord? id = some r ∧ m'.valueOf? r.varId = some r.value)
      m'.outputs m'.results := by
  have hm' := h.reachable hm
  refine forall₂_imp (h.shown hm.sound) fun id hid r hr => ⟨hr, ?_⟩
  obtain ⟨b, x, s, hb, hx, hs, rfl⟩ := outputRecord?_eq_some.mp hr
  obtain ⟨c, hc, hkind⟩ := (hm'.sound.enrolled.lists.2.mem id).mp hid
  cases hb.symm.trans hc
  change m'.valueOf? s.varId = some b.value
  rw [valueOf?_of_distinct hm'.distinct hs]
  exact (h.settled hm.sound).value_of_output hb hkind hx

/-- Records that are as many as the outputs are labelled by the present wiring, one output after the
other, whatever the model has been through since they were made. A successful evaluation leaves one
record for each output block, in the order of the blocks, with the value of its variable. -/
theorem Reachable.results_agree (hm : m.Reachable) :
    (m.results.length = m.outputs.length → List.Forall₂ m.Labels m.outputs m.results) ∧
    m.outputVector.map Record.label = (m.outputs.filterMap m.outputRecord?).map Record.label ∧
    ∀ m', m.Computes m' →
      Lists m'.outputs (fun b : Block α => b.kind = .output) m'.blocks ∧
      m'.outputVector = m'.results ∧
      List.Forall₂ (fun id r => m'.outputRecord? id = some r ∧ m'.valueOf? r.varId = some r.value)
        m'.outputs m'.results := by
  refine ⟨hm.sound.harvested.forall₂_labels, hm.sound.harvested.outputVector_labels, ?_⟩
  intro m' hcomputes
  refine ⟨?_, hcomputes.outputVector hm.sound, hcomputes.results_show hm⟩
  exact (hcomputes.reachable hm).sound.enrolled.lists.2

/-- A limited signal that an output block reads from the start. -/
def capped : Draft Float :=
  .after "capped"
    [ .signal ((Signal.declare "Y" "y" "").withLimits (some 0) (some 1)),
      .block "source" (.constant 3), .output ⟨0⟩ (.variable "Y"),
      .block "tap" .output, .input ⟨1⟩ 0 (.variable "Y") ]

/-- The output is recorded, a limiter comes in between, and the next cycle brings the record up to date.
-/
theorem results_agree_capped :
    ∃ m n n' : Model Float, capped.wire = .ok m ∧ complete.run (final cycle m) = .ok () n ∧
      n.signals.size = m.signals.size + 1 ∧ n.results.length = 1 ∧
      List.Forall₂ n.Labels n.outputs n.results ∧ cycle.run n = .ok () n' ∧
      List.Forall₂ (fun id r => n'.outputRecord? id = some r ∧ n'.valueOf? r.varId = some r.value)
        n'.outputs n'.results := by
  have hruns : capped.wire.toOption.any (fun m : Model Float =>
      match complete.run (final cycle m) with
      | .ok () n => (n.signals.size == m.signals.size + 1) && (n.results.length == 1) &&
          (n.outputs.length == 1) && (cycle.run n matches .ok () _)
      | .error _ _ => false) = true := by decide +kernel
  obtain ⟨m, hm, hrun⟩ := outcome_of_any hruns
  have hcycled : (final cycle m).Reachable :=
    .call .cycle (.wired (Draft.reachable_after _ _) hm)
  cases hcomplete : complete.run (final cycle m) with
  | error e n => rw [hcomplete] at hrun; cases hrun
  | ok u n =>
      rw [hcomplete] at hrun
      simp only [Bool.and_eq_true, beq_iff_eq] at hrun
      obtain ⟨⟨⟨hsize, hresults⟩, houtputs⟩, hcycle⟩ := hrun
      have hn : n.Reachable := by
        have hcall := hcycled.call .complete
        rwa [ModelCall.run, final_of_ok hcomplete] at hcall
      cases hrun : cycle.run n with
      | error e n' => rw [hrun] at hcycle; cases hcycle
      | ok v n' =>
          have hagree := Reachable.results_agree hn
          exact ⟨m, n, n', hm, hcomplete, hsize, hresults,
            hagree.1 (hresults.trans houtputs.symm), hrun, (hagree.2.2 n' (.inl hrun)).2.2⟩

end Evaluated

end Model

end BlockDiagram
