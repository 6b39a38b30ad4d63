import BlockDiagram.Proofs.Draft.Faults
import BlockDiagram.Proofs.Draft.Progress
/-! Bounds of drafts: no call on a draft reads past the end of an arena, whatever its arguments, and
neither does wiring what the calls have made. Nor does a call leave the words, unless it is to register a
table over a grid whose nodes no word can count. -/

namespace BlockDiagram

open Call

theorem BreakpointSet.ofValues_inBounds {α : Type} [Arithmetic α] {id : String}
    {values : List α} {e : ModelError α} (h : BreakpointSet.ofValues id values = .error e) : e.InBounds := by
  unfold BreakpointSet.ofValues at h
  split at h
  · cases h
    rintro _ _ ⟨⟩
  · split at h
    · cases h
      rintro _ _ ⟨⟩
    · split at h
      · cases h
        rintro _ _ ⟨⟩
      · cases h

/-- A table whose nodes can be counted is refused for its shape only. -/
theorem Table.ofValues_inBounds {α : Type} {id : String} {axes : List Axis} {values : Array α}
    {e : ModelError α} (hpos : ∀ d ∈ axes.map Axis.length, 0 < d)
    (hsize : gridSize (axes.map Axis.length) < wordSize)
    (h : Table.ofValues id axes values = .error e) : e.InBounds := by
  unfold Table.ofValues at h
  split at h
  · cases h
    rintro _ _ ⟨⟩
  · rw [nodeCount_of_lt hpos hsize, outcome_ok_bind] at h
    split at h
    · cases h
    · cases h
      rintro _ _ ⟨⟩

namespace Draft

variable {α : Type}

section Registries

variable {d : Draft α} {e : ModelError α}

theorem breakpointsId?_inBounds {id : String} (h : d.breakpointsId? id = .error e) : e.InBounds := by
  unfold breakpointsId? at h
  split at h
  · cases h
  · cases h
    rintro _ _ ⟨⟩

theorem tableId?_inBounds {id : String} (h : d.tableId? id = .error e) : e.InBounds := by
  unfold tableId? at h
  split at h
  · cases h
  · cases h
    rintro _ _ ⟨⟩

/-- The table an ID stands for is in its arena. -/
theorem tableNamed_inBounds {id : String} (h : d.tableNamed id = .error e) : e.InBounds := by
  rcases outcome_bind_error.mp h with hid | ⟨table, hid, hentry⟩
  · exact tableId?_inBounds hid
  · obtain ⟨t, ht, -⟩ := tableId?_ok hid
    rw [entry_eq_ok.mpr ht] at hentry
    cases hentry

/-- The breakpoint set an ID stands for is in its arena. -/
theorem axis_inBounds {id : String} (h : d.axis id = .error e) : e.InBounds := by
  rcases outcome_bind_error.mp h with hid | ⟨set, hid, h⟩
  · exact breakpointsId?_inBounds hid
  · obtain ⟨s, hs, -⟩ := breakpointsId?_ok hid
    rw [entry_eq_ok.mpr hs] at h
    cases h

theorem enlist_inBounds {block : BlockId} {k : BlockKind α} (h : d.enlist block k = .error e) :
    e.InBounds := by
  unfold enlist at h
  split at h
  · split at h
    · cases h
    · cases h
      rintro _ _ ⟨⟩
  · split at h
    · cases h
    · cases h
      rintro _ _ ⟨⟩
  · cases h

theorem bindable_inBounds {block : BlockId} {r : Reference} (h : d.bindable block r = .error e) :
    e.InBounds := by
  rcases outcome_bind_error.mp h with hr | ⟨u, -, hb⟩
  · unfold checkReference at hr
    split at hr
    · split at hr
      · cases hr
      · cases hr
        rintro _ _ ⟨⟩
    · cases hr
  · unfold blockAt at hb
    split at hb
    · cases hb
    · cases hb
      rintro _ _ ⟨⟩

end Registries

section Calls

theorem addSignal_inBounds (s : Signal α) : FailsOnly ModelError.InBounds (addSignal s) := by
  intro d e d' h
  rw [addSignal_run] at h
  split at h
  · cases h
    rintro _ _ ⟨⟩
  · cases h

theorem addBlock_inBounds (name : String) (kind : BlockKind α) :
    FailsOnly ModelError.InBounds (addBlock name kind) := by
  intro d e d' h
  rw [addBlock_run] at h
  split at h
  · rename_i hfail
    cases h
    exact enlist_inBounds hfail
  · cases h

theorem bindInput_inBounds (block : BlockId) (slot : Nat) (r : Reference) :
    FailsOnly ModelError.InBounds (bindInput block slot r : Drafting α Unit) := by
  intro d e d' h
  rw [bindInput_run] at h
  split at h
  · rename_i hfail
    cases h
    exact bindable_inBounds hfail
  · cases h

theorem bindOutput_inBounds (block : BlockId) (r : Reference) :
    FailsOnly ModelError.InBounds (bindOutput block r : Drafting α Unit) := by
  intro d e d' h
  rw [bindOutput_run] at h
  split at h
  · rename_i hfail
    cases h
    exact bindable_inBounds hfail
  · split at h
    · cases h
    · cases h
      rintro _ _ ⟨⟩

theorem registerBreakpoints_inBounds [Arithmetic α] (id : String) (values : List α) :
    FailsOnly ModelError.InBounds (registerBreakpoints id values) := by
  intro d e d' h
  rw [registerBreakpoints_run] at h
  split at h
  · cases h
    rintro _ _ ⟨⟩
  · split at h
    · rename_i hfail
      cases h
      exact BreakpointSet.ofValues_inBounds hfail
    · cases h

theorem axisLengths_of_axesNamed {d : Draft α} {names : List String} {axes : List Axis}
    (h : d.axesNamed names = .ok axes) : d.AxisLengths names (axes.map Axis.length) := by
  obtain ⟨rfl, hsets⟩ := axesNamed_ok h
  refine List.forall₂_map_left_iff.mpr (List.forall₂_map_right_iff.mpr (List.forall₂_same.mpr ?_))
  intro a ha
  obtain ⟨s, hs, hid, hlength⟩ := hsets a ha
  exact ⟨s, Array.mem_of_getElem? hs, hid, hlength⟩

theorem registerTable_inBounds {d d' : Draft α} (hd : d.Sound) {id : Option String} {axes : List String}
    {values : Array α} {e : ModelError α}
    (hsized : ∀ lengths, d.AxisLengths axes lengths → gridSize lengths < wordSize)
    (h : (registerTable id axes values).run d = .error e d') : e.InBounds := by
  rw [registerTable_run] at h
  split at h
  · cases h
    rintro _ _ ⟨⟩
  · split at h
    · rename_i hfail
      cases h
      rcases outcome_bind_error.mp hfail with haxes | ⟨xs, hxs, hvalues⟩
      · obtain ⟨axis, -, haxis⟩ := outcome_mapM_error haxes
        exact axis_inBounds haxis
      · have hlengths := axisLengths_of_axesNamed hxs
        exact Table.ofValues_inBounds (hlengths.pos hd) (hsized _ hlengths) hvalues
    · cases h

theorem bindVariables_inBounds (block : BlockId) (slot : Nat) (vs : List String) :
    FailsOnly ModelError.InBounds (bindVariables block slot vs : Drafting α Unit) := by
  induction vs generalizing slot with
  | nil => exact failsOnly_pure ()
  | cons v vs ih => exact failsOnly_bind (bindInput_inBounds block slot _) fun _ => ih (slot + 1)

theorem addLookup_inBounds (name table : String) (coordinates : List String) (output : String) :
    FailsOnly ModelError.InBounds (addLookup name table coordinates output : Drafting α BlockId) := by
  unfold addLookup
  refine failsOnly_bind failsOnly_get fun d => ?_
  refine failsOnly_bind (failsOnly_lift fun e => tableId?_inBounds) fun id => ?_
  refine failsOnly_bind (addBlock_inBounds _ _) fun block => ?_
  refine failsOnly_bind (bindVariables_inBounds _ _ _) fun _ => ?_
  exact failsOnly_bind (bindOutput_inBounds _ _) fun _ => failsOnly_pure _

variable [Scalar α]

theorem addNormalizer_inBounds (breakpoints input : String) :
    FailsOnly ModelError.InBounds (addNormalizer breakpoints input : Drafting α String) := by
  unfold addNormalizer
  refine failsOnly_bind failsOnly_get fun d => ?_
  refine failsOnly_bind (failsOnly_lift fun e => breakpointsId?_inBounds) fun set => ?_
  dsimp only
  split
  · exact failsOnly_pure _
  · refine failsOnly_bind (addSignal_inBounds _) fun signal => ?_
    refine failsOnly_bind (addBlock_inBounds _ _) fun block => ?_
    refine failsOnly_bind (bindInput_inBounds _ _ _) fun _ => ?_
    refine failsOnly_bind (bindOutput_inBounds _ _) fun _ => ?_
    exact failsOnly_bind (failsOnly_modify _) fun _ => failsOnly_pure _

theorem addFunction_inBounds (name table : String) (inputs : List String) (output : String) :
    FailsOnly ModelError.InBounds (addFunction name table inputs output : Drafting α BlockId) := by
  unfold addFunction
  refine failsOnly_bind failsOnly_get fun d => ?_
  refine failsOnly_bind (failsOnly_lift fun e => tableNamed_inBounds) fun t => ?_
  split
  · refine failsOnly_bind (failsOnly_fail (by rintro _ _ ⟨⟩)) fun _ => ?_
    exact failsOnly_bind (failsOnly_mapM (fun _ => addNormalizer_inBounds _ _) _) fun _ =>
      addLookup_inBounds _ _ _ _
  · exact failsOnly_bind (failsOnly_mapM (fun _ => addNormalizer_inBounds _ _) _) fun _ =>
      addLookup_inBounds _ _ _ _

end Calls

end Draft

/-- The call is to register a table over a grid whose nodes no word can count. -/
def DraftCall.Oversized {α : Type} (c : DraftCall α) (d : Draft α) : Prop :=
  ∃ id axes values lengths, c = .table id axes values ∧ d.AxisLengths axes lengths ∧
    wordSize ≤ gridSize lengths

theorem DraftCall.inBounds {α : Type} [Scalar α] (c : DraftCall α) {d d' : Draft α} (hd : d.Sound)
    (hsized : ¬ c.Oversized d) {e : ModelError α} (h : c.run.run d = .error e d') : e.InBounds := by
  cases c with
  | signal s => exact Draft.addSignal_inBounds s _ _ _ (run_discard_error.mp h)
  | block name kind => exact Draft.addBlock_inBounds name kind _ _ _ (run_discard_error.mp h)
  | input id slot r => exact Draft.bindInput_inBounds id slot r _ _ _ h
  | output id r => exact Draft.bindOutput_inBounds id r _ _ _ h
  | breakpoints id values => exact Draft.registerBreakpoints_inBounds id values _ _ _ (run_discard_error.mp h)
  | table id axes values =>
      refine Draft.registerTable_inBounds hd (fun lengths hlengths => ?_) (run_discard_error.mp h)
      by_contra hlarge
      exact hsized ⟨id, axes, values, lengths, rfl, hlengths, Nat.not_lt.mp hlarge⟩
  | normalizer set v => exact Draft.addNormalizer_inBounds set v _ _ _ (run_discard_error.mp h)
  | lookup name t vs out => exact Draft.addLookup_inBounds name t vs out _ _ _ (run_discard_error.mp h)
  | function name t vs out => exact Draft.addFunction_inBounds name t vs out _ _ _ (run_discard_error.mp h)

namespace Draft

/-- Wiring reads the arenas of the draft and of the model in the making within their bounds. -/
theorem wire_inBounds {α : Type} [Scalar α] {d : Draft α} {e : ModelError α} (hd : d.Sound)
    (h : d.wire = .error e) : e.InBounds := by
  rcases wire_cases hd with ⟨m, hm, -⟩ | ⟨⟨id, port⟩, e', hfail, hfirst⟩
  · cases hm.symm.trans h
  · cases hfail.symm.trans h
    obtain ⟨b, -, hfault⟩ := hfirst.fault
    cases hfault <;> rintro _ _ ⟨⟩

/-- Completion does not fail at all. -/
theorem build_inBounds {α : Type} [Scalar α] {d : Draft α} {e : ModelError α} (hd : d.Sound)
    (h : d.build = .error e) : e.InBounds := by
  rcases outcome_bind_error.mp h with hwire | ⟨m, hm, -⟩
  · exact wire_inBounds hd hwire
  · obtain ⟨m', hbuilt⟩ := build_of_wire hd hm
    rw [hbuilt] at h
    cases h

end Draft

end BlockDiagram
