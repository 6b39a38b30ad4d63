import BlockDiagram.Proofs.Document.Fault
import BlockDiagram.Proofs.Document.Lowered
import BlockDiagram.Proofs.Draft.Progress
/-! Declarations: the breakpoint sets, shared tables and variables of a valid document can be declared,
unless points decrease or the values of a table do not fit its axes. -/

namespace BlockDiagram

open Call Draft

variable {α : Type} [Scalar α]

namespace Document

variable {doc : Document α} {d d' : Draft α}

omit [Scalar α] in
theorem Blank.closed (h : Blank d) : d.Closed := by
  constructor
  · intro i b hb
    rw [h.blocks, Array.getElem?_empty] at hb
    cases hb
  · intro i b hb
    rw [h.blocks, Array.getElem?_empty] at hb
    cases hb

omit [Scalar α] in
/-- Calls that each declare something under an ID of its own. -/
theorem forEach_declares {β : Type} {call : β → Drafting α Unit} {bs : List β} (key : β → String)
    (ids : Draft α → List String) {failure? : β → Option (ModelError α)} (I : Draft α → Prop)
    (hcall : ∀ b ∈ bs, ∀ d, I d → key b ∉ ids d →
      Concludes (call b) d (failure? b) fun _ d' => I d' ∧ ids d' = ids d ++ [key b])
    (hnodup : (bs.map key).Nodup) (hnew : ∀ b ∈ bs, key b ∉ ids d) (hd : I d) :
    Concludes (forEach call bs) d (bs.findSome? failure?) fun _ d' =>
      I d' ∧ ids d' = ids d ++ bs.map key := by
  induction bs generalizing d with
  | nil => exact ⟨(), d, rfl, hd, by rw [List.map_nil, List.append_nil]⟩
  | cons b rest ih =>
      have hfirst : (b :: rest).findSome? failure? = (failure? b).or (rest.findSome? failure?) := by
        rw [List.findSome?_cons]
        cases failure? b <;> rfl
      rw [List.map_cons, List.nodup_cons] at hnodup
      rw [hfirst]
      refine (hcall b List.mem_cons_self d hd (hnew b List.mem_cons_self)).bind ?_
      rintro u d₁ - ⟨hd₁, hids⟩
      refine (ih (fun c hc => hcall c (List.mem_cons_of_mem b hc)) hnodup.2 ?_ hd₁).imp ?_
      · intro c hc hin
        rw [hids, List.mem_append, List.mem_singleton] at hin
        rcases hin with hold | hsame
        · exact hnew c (List.mem_cons_of_mem b hc) hold
        · exact hnodup.1 (hsame ▸ List.mem_map_of_mem hc)
      · rintro _ d₂ - ⟨hd₂, hids₂⟩
        exact ⟨hd₂, by rw [hids₂, hids, List.append_assoc, List.singleton_append, List.map_cons]⟩

/-- Points that are there and finite can only decrease. -/
theorem registerBreakpoints_concludes {b : Breakpoints α} (hb : checkBreakpoints b = .ok ())
    (hnew : b.id ∉ d.breakpoints.toList.map BreakpointSet.id) :
    Concludes (registerBreakpoints b.id b.values) d (descentFault? b) fun _ d' =>
      d' = { d with breakpoints := d.breakpoints.push { id := b.id, values := b.values } } := by
  have hany : (d.breakpoints.any fun s => s.id == b.id) = false := by
    rw [Array.any_eq_false']
    intro s hs heq
    exact hnew (List.mem_map.mpr ⟨s, Array.mem_toList_iff.mpr hs, beq_iff_eq.mp heq⟩)
  unfold checkBreakpoints at hb
  split at hb
  · cases hb
  · rename_i hne
    split at hb
    · cases hb
    · rename_i hfinite
      have hrun := registerBreakpoints_run b.id b.values d
      rw [hany, if_neg Bool.false_ne_true, BreakpointSet.ofValues, if_neg hne, hfinite] at hrun
      unfold descentFault?
      cases hdescent : firstDescent b.values with
      | some index =>
          rw [hdescent] at hrun
          exact ⟨_, hrun⟩
      | none =>
          rw [hdescent] at hrun
          exact ⟨_, _, hrun, rfl⟩

theorem sets_conclude (hdoc : doc.Valid) :
    Concludes (forEach (fun b : Breakpoints α => do
      let _ ← registerBreakpoints b.id b.values) doc.breakpoints) (empty doc.name)
      (doc.breakpoints.findSome? descentFault?) fun _ d =>
        Blank d ∧ (∀ b ∈ doc.breakpoints, HasSet b d) ∧ d.tables = #[] ∧ d.signals = #[] ∧
          d.anonymous = 0 := by
  refine (forEach_declares Breakpoints.id (fun d => d.breakpoints.toList.map BreakpointSet.id)
    (fun d => d.tables = #[] ∧ d.signals = #[] ∧ d.anonymous = 0) (fun b hb d hd hnew => ?_) hdoc.sets
    (fun _ _ hin => by cases hin) ⟨rfl, rfl, rfl⟩).imp ?_
  · refine ((registerBreakpoints_concludes (hdoc.points b hb) hnew).imp ?_).discard
    rintro _ _ - rfl
    exact ⟨hd, by rw [Array.toList_push, List.map_append]; rfl⟩
  · rintro _ d hrun ⟨hd, -⟩
    obtain ⟨hblank, hsets⟩ := sets_ok hrun (blank_empty doc.name)
    exact ⟨hblank, hsets, hd⟩

/-- The axes of a table are as long as the document says. -/
theorem axisLengths_of_sets (hdoc : doc.Valid) (hsets : ∀ b ∈ doc.breakpoints, HasSet b d)
    {axes : List String} (haxes : ∀ a ∈ axes, a ∈ doc.breakpoints.map Breakpoints.id) :
    d.AxisLengths axes (axes.map doc.axisLength) := by
  refine List.forall₂_map_right_iff.mpr (List.forall₂_same.mpr fun a ha => ?_)
  obtain ⟨b, hb, rfl⟩ := List.mem_map.mp (haxes a ha)
  obtain ⟨i, s, hs, hsid, hvalues⟩ := hsets b hb
  exact ⟨s, Array.mem_of_getElem? hs, hsid, by rw [hvalues, hdoc.axisLength_eq hb]⟩

/-- A table over known axes, whose nodes can be counted, is registered if its values fit them. -/
theorem registerTable_concludes (hdoc : doc.Valid) (hd : d.Sound)
    (hsets : ∀ b ∈ doc.breakpoints, HasSet b d) (id : Option String) {axes : List String}
    {values : List α} (hid : ¬ ∃ i ∈ id, i ∈ d.tableIds) (hne : axes ≠ [])
    (haxes : ∀ a ∈ axes, a ∈ doc.breakpoints.map Breakpoints.id) (hcount : doc.nodes axes < wordSize) :
    Concludes (registerTable id axes values.toArray) d (doc.shapeFault? (d.claimedId id) axes values)
      fun table d' => ∃ t, t.id = d.claimedId id ∧ t.axes.map Axis.id = axes ∧
        table = ⟨d.tables.size⟩ ∧ d' = { d.claimed id with tables := d.tables.push t } := by
  have hlengths := axisLengths_of_sets hdoc hsets haxes
  obtain ⟨t, htid, hids, -, -, hrun⟩ := registerTable_eq hd values.toArray hid hne hlengths
  have hexpected : (nodeCount (axes.map doc.axisLength) : Except (ModelError α) Nat) = .ok (doc.nodes axes) :=
    nodeCount_of_lt (hlengths.pos hd) hcount
  rw [hexpected] at hrun
  dsimp only at hrun
  rw [List.size_toArray] at hrun
  unfold shapeFault?
  by_cases hfits : values.length = doc.nodes axes
  · rw [if_pos hfits] at hrun ⊢
    exact ⟨_, _, hrun, t, htid, hids, rfl, rfl⟩
  · rw [if_neg hfits] at hrun ⊢
    exact ⟨_, hrun⟩

theorem tables_conclude (hdoc : doc.Valid) (hcount : doc.Countable) (hd : Blank d)
    (hsets : ∀ b ∈ doc.breakpoints, HasSet b d) (htables : d.tables = #[]) (hsignals : d.signals = #[])
    (hunused : d.anonymous = 0) :
    Concludes (forEach (fun t : Grid α => do
      let _ ← registerTable (some t.id) t.axes t.values.toArray) doc.tables) d
      (doc.tables.findSome? fun t => doc.shapeFault? t.id t.axes t.values) fun _ d' =>
        Blank d' ∧ (∀ b ∈ doc.breakpoints, HasSet b d') ∧ (∀ g ∈ doc.tables, HasTable g d') ∧
          d'.tableIds = doc.tables.map Grid.id ∧ d'.signals = #[] ∧ d'.anonymous = 0 := by
  have hempty : d.tableIds = [] := by
    rw [tableIds, htables]
    rfl
  refine (forEach_declares Grid.id tableIds
    (fun d => d.Sound ∧ (∀ b ∈ doc.breakpoints, HasSet b d) ∧ d.signals = #[] ∧ d.anonymous = 0)
    (fun t ht d hd hnew => ?_) hdoc.tables (fun t _ hin => ?_) ⟨hd.sound, hsets, hsignals, hunused⟩).imp ?_
  · obtain ⟨hsound, hsets, hframe⟩ := hd
    refine ((registerTable_concludes hdoc hsound hsets (some t.id) ?_ (hdoc.gridded t ht)
      (hdoc.axes t ht) (hcount.shared t ht)).imp ?_).discard
    · rintro ⟨_, ⟨⟩, hin⟩
      exact hnew hin
    · rintro table d' hrun ⟨t', hid, -, -, rfl⟩
      refine ⟨⟨(keeps_registerTable _ _ _).ok hsound hrun, hsets, hframe⟩, ?_⟩
      rw [tableIds, Array.toList_push, List.map_append, List.map_singleton, hid]
      rfl
  · rw [hempty] at hin
    cases hin
  · rintro _ d' hrun ⟨⟨-, hsets', hframe⟩, hids⟩
    obtain ⟨-, hblank, halltables⟩ := tables_ok hrun hd
    rw [hempty, List.nil_append] at hids
    exact ⟨hblank, hsets', halltables, hids, hframe⟩

/-- All that a document declares is in the draft, and nothing else. -/
structure Declared (doc : Document α) (d : Draft α) : Prop where
  blank : Blank d
  sets : ∀ b ∈ doc.breakpoints, HasSet b d
  tables : ∀ g ∈ doc.tables, HasTable g d
  signals : ∀ v ∈ doc.vars, HasSignal v d
  tableIds : d.tableIds = doc.tables.map Grid.id
  anonymous : d.anonymous = 0

theorem vars_conclude (hdoc : doc.Valid) (hd : Blank d) (hsets : ∀ b ∈ doc.breakpoints, HasSet b d)
    (htables : ∀ g ∈ doc.tables, HasTable g d) (hids : d.tableIds = doc.tables.map Grid.id)
    (hsignals : d.signals = #[]) (hunused : d.anonymous = 0) :
    Concludes (forEach (fun v : Variable α => do let _ ← addSignal v.signal) doc.vars) d none
      fun _ d' => doc.Declared d' := by
  have hnone : (none : Option (ModelError α)) = doc.vars.findSome? fun _ => none :=
    (List.findSome?_eq_none_iff.mpr fun _ _ => rfl).symm
  rw [hnone]
  refine (forEach_declares Variable.varId varIds
    (fun d => d.tableIds = doc.tables.map Grid.id ∧ d.anonymous = 0) (fun v _ d hd hnew => ?_) hdoc.vars
    (fun v _ hin => ?_) ⟨hids, hunused⟩).imp ?_
  · have hrun : (addSignal v.signal).run d =
        .ok ⟨d.signals.size⟩ { d with signals := d.signals.push v.signal.unwired } :=
      (addSignal_run v.signal d).trans (if_neg hnew)
    refine Concludes.discard ⟨_, _, hrun, hd, ?_⟩
    rw [varIds, Array.toList_push, List.map_append]
    rfl
  · rw [varIds, hsignals] at hin
    cases hin
  · rintro _ d' hrun ⟨⟨hids', hunused'⟩, -⟩
    obtain ⟨hgrows, hblank, hallsignals⟩ := vars_ok hrun hd
    exact ⟨hblank, fun b hb => hasSet_grows hgrows (hsets b hb),
      fun g hg => hasTable_grows hgrows (htables g hg), hallsignals, hids', hunused'⟩

end Document

end BlockDiagram
