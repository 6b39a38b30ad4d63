import BlockDiagram.Proofs.Draft.Bounds
import BlockDiagram.Proofs.Grid.Guarded
import BlockDiagram.Proofs.Model.Agreement
import BlockDiagram.Proofs.Model.Scheduling
/-! Bounds of models: no call on a reachable model reads past the end of an arena or of a table, and
neither does telling its inputs and outputs. -/

namespace BlockDiagram

open Call

variable {α : Type}

namespace Model

section Guarded

/-- The records of the signals that `shown` picks from some blocks, all of which must exist. -/
def guardedRecords (m : Model α) (shown : Block α → Option SignalId) (ids : List BlockId) :
    Except (ModelError α) (List (Record α)) := do
  let records ← ids.mapM fun id => do
    let b ← entry m.blocks id.index
    return (shown b).bind (m.record? id)
  return records.filterMap id

def guardedInputVector (m : Model α) : Except (ModelError α) (List (Record α)) :=
  m.guardedRecords Block.output m.inputs

def guardedOutputVector (m : Model α) : Except (ModelError α) (List (Record α)) :=
  if m.results.length = m.outputs.length then .ok m.results
  else m.guardedRecords (fun b => b.inputs.head?) m.outputs

/-- The input block a limited signal stands for; the producer of the signal must exist. -/
def guardedLimitedInput (m : Model α) (s : Signal α) : Except (ModelError α) (Option BlockId) :=
  match s.source with
  | none => .ok none
  | some e => do
    let _ ← entry m.blocks e.block.index
    return m.limitedInput? s

/-- The key names the signal that the block produces. -/
def producesNamed (m : Model α) (key : String) (b : Block α) : Bool :=
  ((b.output.bind m.signal?).map fun s => s.answersTo key).getD false

/-- The input block a key names; every block looked at must exist. -/
def guardedInputBlock (m : Model α) (key : String) : Except (ModelError α) (Option BlockId) := do
  let direct ← m.inputs.findM? fun id => m.producesNamed key <$> entry m.blocks id.index
  match direct with
  | some id => return some id
  | none =>
    match m.signals.find? fun s => s.limited && s.answersTo key with
    | none => return none
    | some s => m.guardedLimitedInput s

/-- The model with its output records brought up to date; every output block must exist. -/
def guardedHarvest (m : Model α) : Except (ModelError α) (Model α) := do
  let records ← m.guardedOutputVector
  let results ← (records.zip m.outputs).mapM fun (r, id) => do
    let b ← entry m.blocks id.index
    return { r with value := b.value }
  return { m with results }

variable {m : Model α}

theorem guardedRecords_eq {shown : Block α → Option SignalId} {ids : List BlockId}
    (hids : ∀ id ∈ ids, id.index < m.blocks.size) :
    m.guardedRecords shown ids =
      .ok (ids.filterMap fun id => (m.block? id).bind fun b => (shown b).bind (m.record? id)) := by
  have hrecords : (ids.mapM fun id => do
      let b ← (entry m.blocks id.index : Except (ModelError α) (Block α))
      return (shown b).bind (m.record? id)) =
      .ok (ids.map fun id => (m.block? id).bind fun b => (shown b).bind (m.record? id)) := by
    rw [outcome_mapM_ok, List.forall₂_map_right_iff, List.forall₂_same]
    intro id hid
    obtain ⟨b, hb⟩ := exists_block (hids id hid)
    rw [entry_eq_ok.mpr hb, hb]
    rfl
  rw [guardedRecords, hrecords, outcome_ok_bind, List.filterMap_map]
  rfl

theorem guardedInputVector_eq (h : ∀ id ∈ m.inputs, id.index < m.blocks.size) :
    m.guardedInputVector = .ok m.inputVector :=
  guardedRecords_eq h

theorem guardedOutputVector_eq (h : ∀ id ∈ m.outputs, id.index < m.blocks.size) :
    m.guardedOutputVector = .ok m.outputVector := by
  rw [guardedOutputVector, outputVector]
  split
  · rfl
  · exact guardedRecords_eq h

theorem guardedHarvest_eq (h : ∀ id ∈ m.outputs, id.index < m.blocks.size) :
    m.guardedHarvest = .ok m.harvest := by
  have hresults : ((m.outputVector.zip m.outputs).mapM fun (r, id) => do
      let b ← (entry m.blocks id.index : Except (ModelError α) (Block α))
      return ({ r with value := b.value } : Record α)) =
      .ok ((m.outputVector.zip m.outputs).map fun (r, id) =>
        { r with value := (m.block? id).elim r.value Block.value }) := by
    rw [outcome_mapM_ok, List.forall₂_map_right_iff, List.forall₂_same]
    rintro ⟨r, id⟩ hid
    obtain ⟨b, hb⟩ := exists_block (h id (List.of_mem_zip hid).2)
    dsimp only
    rw [entry_eq_ok.mpr hb, hb]
    rfl
  rw [guardedHarvest, guardedOutputVector_eq h, outcome_ok_bind, hresults]
  rfl

theorem HandlesInRange.guardedLimitedInput_eq (h : m.HandlesInRange) {s : Signal α}
    (hs : s ∈ m.signals) : m.guardedLimitedInput s = .ok (m.limitedInput? s) := by
  obtain ⟨i, hi⟩ := Array.mem_iff_getElem?.mp hs
  unfold guardedLimitedInput
  split
  · rename_i hsource
    rw [limitedInput?, hsource]
    rfl
  · rename_i e he
    obtain ⟨b, hb⟩ := exists_block (h.sources ⟨i⟩ s hi e he)
    rw [entry_eq_ok.mpr hb, outcome_ok_bind]
    rfl

theorem HandlesInRange.guardedInputBlock_eq (h : m.HandlesInRange) (key : String) :
    m.guardedInputBlock key = .ok (m.inputBlock? key) := by
  have hdirect : (m.inputs.findM? fun id =>
      m.producesNamed key <$> (entry m.blocks id.index : Except (ModelError α) (Block α))) =
      .ok (m.inputs.find? fun id => ((m.outputOf? id).map fun s => s.answersTo key).getD false) := by
    refine outcome_findM? fun id hid => ?_
    obtain ⟨b, hb⟩ := exists_block (h.inputs id hid)
    rw [entry_eq_ok.mpr hb, outputOf?, hb]
    rfl
  rw [guardedInputBlock, hdirect, outcome_ok_bind, inputBlock?]
  cases m.inputs.find? fun id => ((m.outputOf? id).map fun s => s.answersTo key).getD false with
  | some id => rfl
  | none =>
      cases hfind : m.signals.find? fun s => s.limited && s.answersTo key with
      | none => rfl
      | some s => exact h.guardedLimitedInput_eq (Array.mem_of_find?_eq_some hfind)

theorem limitedInput?_mem {s : Signal α} {id : BlockId} (h : m.limitedInput? s = some id) :
    id ∈ m.inputs := by
  obtain ⟨source, -, h⟩ := Option.bind_eq_some_iff.mp h
  obtain ⟨limiter, -, h⟩ := Option.bind_eq_some_iff.mp h
  obtain ⟨-, -, h⟩ := Option.bind_eq_some_iff.mp h
  obtain ⟨x, -, h⟩ := Option.bind_eq_some_iff.mp h
  obtain ⟨unlimited, -, h⟩ := Option.bind_eq_some_iff.mp h
  obtain ⟨e, -, h⟩ := Option.bind_eq_some_iff.mp h
  obtain ⟨u, hlisted, h⟩ := Option.bind_eq_some_iff.mp h
  cases h
  by_contra hnot
  rw [List.contains_eq_mem, decide_eq_false hnot] at hlisted
  cases hlisted

/-- The block a key names is one of the inputs. -/
theorem inputBlock?_mem {key : String} {id : BlockId} (h : m.inputBlock? key = some id) :
    id ∈ m.inputs := by
  unfold inputBlock? at h
  cases hdirect : m.inputs.find? fun id =>
      ((m.outputOf? id).map fun s => s.answersTo key).getD false with
  | some p =>
      rw [hdirect] at h
      cases h
      exact List.mem_of_find?_eq_some hdirect
  | none =>
      rw [hdirect] at h
      obtain ⟨s, -, hs⟩ := Option.bind_eq_some_iff.mp h
      exact limitedInput?_mem hs

end Guarded

variable [Scalar α] {m m₀ m' : Model α} {e : ModelError α}

omit [Scalar α] in
/-- Signals that exist have producers that exist, if any. -/
theorem EdgesAgree.inputValues_inBounds (hm : m.EdgesAgree) {ids : List SignalId}
    (hids : ∀ s ∈ ids, s.index < m.signals.size) (h : m.inputValues ids = .error e) : e.InBounds := by
  induction ids with
  | nil => cases h
  | cons id ids ih =>
      obtain ⟨s, hs⟩ := exists_signal (hids id List.mem_cons_self)
      rw [inputValues, entry_eq_ok.mpr hs, outcome_ok_bind] at h
      split at h
      · cases h
        rintro _ _ ⟨⟩
      · rename_i source hsource
        obtain ⟨-, b, hb, -⟩ := (hm.source id s hs source).mp hsource
        rw [entry_eq_ok.mpr hb, outcome_ok_bind] at h
        split at h
        · rcases outcome_bind_error.mp h with hrest | ⟨r, -, h⟩
          · exact ih (fun s hs => hids s (List.mem_cons_of_mem id hs)) hrest
          · cases h
        · cases h

/-- A value that cannot be told is missing for want of a producer, or for a wrong input count. -/
theorem Sound.nextValue_inBounds (hm : m.Sound) {b : Block α}
    (hinputs : ∀ s ∈ b.inputs, s.index < m.signals.size)
    (hkind : b.kind.InRange m.breakpoints.size m.tables.size) (h : m.nextValue b = .error e) :
    e.InBounds := by
  by_cases hfits : m.Fits b
  · exact hm.edges.inputValues_inBounds hinputs (hm.inputValues_of_nextValue hkind hfits h)
  · rw [nextValue_of_not_fits hfits] at h
    cases h
    rintro _ _ ⟨⟩

namespace Evaluated

variable {done ids : List BlockId}

theorem nextValue_inBounds (h : Evaluated m₀ done m) (hm₀ : m₀.Sound) {id : BlockId} {b : Block α}
    (hb : m₀.block? id = some b) (hvalue : m.nextValue b = .error e) : e.InBounds := by
  refine (h.sound hm₀).nextValue_inBounds ?_ (h.inRange hm₀ hb) hvalue
  rw [signals_of_bare h.bare]
  exact hm₀.edges.inputs id b hb

/-- A walk along blocks that exist is stopped by a value that cannot be told, or by a stale input. -/
theorem runOrder_inBounds (h : Evaluated m₀ done m) (hm₀ : m₀.Sound)
    (hnodup : ids.Nodup) (hfree : ∀ id ∈ ids, id ∉ done) (hrange : ∀ id ∈ ids, id.index < m₀.blocks.size)
    (hrun : (runOrder ids).run m = .error e m') : e.InBounds := by
  induction ids generalizing done m with
  | nil => cases hrun
  | cons id ids ih =>
      obtain ⟨hidrest, hrestnodup⟩ := List.nodup_cons.mp hnodup
      have hid := hfree id List.mem_cons_self
      rcases run_bind_error.mp hrun with hblock | ⟨u, m₁, hblock, hrest⟩
      · rcases run_bind_error.mp hblock with hrefresh | ⟨r, m₁, -, hblock⟩
        · obtain ⟨rfl, hvalue⟩ := refresh_error hrefresh
          obtain ⟨b, hb⟩ := exists_block (hrange id List.mem_cons_self)
          exact h.nextValue_inBounds hm₀ hb (hvalue b ((h.untouched id hid).trans hb))
        · cases r with
          | false =>
              cases hblock
              rintro _ _ ⟨⟩
          | true => cases hblock
      · obtain ⟨r, m₂, hrefresh, hblock⟩ := run_bind_ok.mp hblock
        cases r with
        | false => cases hblock
        | true =>
            cases hblock
            refine ih (h.step hid hrefresh) hrestnodup ?_
              (fun j hj => hrange j (List.mem_cons_of_mem id hj)) hrest
            intro j hj
            rw [List.mem_append, List.mem_singleton, not_or]
            exact ⟨hfree j (List.mem_cons_of_mem id hj), fun heq => hidrest (heq ▸ hj)⟩

end Evaluated

theorem Sound.prepare_inBounds (hm : m.Sound) (hrun : prepare.run m = .error e m') : e.InBounds := by
  rcases hm.search_error hrun with ⟨done, -, rfl, -⟩ | ⟨id, b, done, hdone, hb, hvalue, -⟩
  · rintro _ _ ⟨⟩
  · exact hdone.nextValue_inBounds hm.advance hb hvalue

theorem Sound.cycle_inBounds (hm : m.Sound) (hrun : cycle.run m = .error e m') : e.InBounds := by
  cases horder : m.order with
  | none =>
      rw [cycle_run_eq_prepare horder] at hrun
      exact hm.prepare_inBounds hrun
  | some l =>
      rw [cycle_run_of_some horder] at hrun
      cases hwalk : (runOrder l).run m.advance with
      | ok u m₁ => rw [hwalk] at hrun; cases hrun
      | error e m₁ =>
          rw [hwalk] at hrun
          cases hrun
          have hperm := hm.order l horder
          refine hm.evaluated_start.runOrder_inBounds hm.advance
            (hperm.nodup_iff.mpr (Handle.nodup_all _)) (fun id _ => List.not_mem_nil) ?_ hwalk
          exact fun id hid => Handle.mem_all.mp (hperm.mem_iff.mp hid)

/-- A cycle that brings the output records up to date under guard. -/
def guardedCycle : Running α Unit := do
  modify advance
  match (← get).order with
  | none => schedule
  | some order => runOrder order
  let m ← (← get).guardedHarvest
  set m

theorem Sound.guardedCycle_run (hm : m.Sound) : guardedCycle.run m = cycle.run m := by
  have houtputs : ∀ {done : List BlockId} {m₁ : Model α}, Evaluated m.advance done m₁ →
      ∀ id ∈ m₁.outputs, id.index < m₁.blocks.size := fun h =>
    (h.sound hm.advance).handlesInRange.outputs
  cases horder : m.order with
  | none =>
      have hadvance : m.advance.order = none := horder
      rw [cycle_run_of_none horder]
      simp only [guardedCycle, EStateM.run_bind, EStateM.run_modify, EStateM.run_get, hadvance]
      cases hschedule : schedule.run m.advance with
      | error e m₁ => rfl
      | ok u m₁ =>
          obtain ⟨l, m₂, hl, -, rfl⟩ := schedule_ok hm.evaluated_start hschedule
          have hharvest : ({ m₂ with order := some l } : Model α).guardedHarvest = .ok _ :=
            guardedHarvest_eq fun id hid => houtputs hl id hid
          simp only [run_lift, hharvest]
          rfl
  | some l =>
      have hadvance : m.advance.order = some l := horder
      rw [cycle_run_of_some horder]
      simp only [guardedCycle, EStateM.run_bind, EStateM.run_modify, EStateM.run_get, hadvance]
      cases hwalk : (runOrder l).run m.advance with
      | error e m₁ => rfl
      | ok u m₁ =>
          have hl := hm.evaluated_start.runOrder_ok
            ((hm.order l horder).nodup_iff.mpr (Handle.nodup_all _)) (fun id _ => List.not_mem_nil) hwalk
          simp only [run_lift, guardedHarvest_eq (houtputs hl)]
          rfl

omit [Scalar α] in
theorem setInput_inBounds (key : String) (value : α) :
    FailsOnly ModelError.InBounds (setInput key value) := by
  intro m e m' h
  rw [setInput_run] at h
  split at h
  · cases h
    rintro _ _ ⟨⟩
  · cases h

omit [Scalar α] in
theorem loadInputs_inBounds (records : List (Record α)) :
    FailsOnly ModelError.InBounds (loadInputs records) := by
  induction records with
  | nil => exact failsOnly_pure ()
  | cons r records ih => exact failsOnly_bind (setInput_inBounds r.varId r.value) fun _ => ih

end Model

theorem ModelCall.inBounds [Scalar α] (c : ModelCall α) {m m' : Model α} {e : ModelError α}
    (hm : m.Sound) (h : c.run.run m = .error e m') : e.InBounds := by
  cases c with
  | complete =>
      obtain ⟨m₁, hrun, -⟩ := Model.complete_run hm.edges
      rw [ModelCall.run, hrun] at h
      cases h
  | setInput key value => exact Model.setInput_inBounds key value m e m' h
  | loadInputs records => exact Model.loadInputs_inBounds records m e m' h
  | prepare => exact hm.prepare_inBounds h
  | cycle => exact hm.cycle_inBounds h

section Statement

variable [Scalar α]

/-- Reading the table at any coordinates gives what the guarded reading gives, and passes no end. -/
def Table.InBounds (t : Table α) : Prop :=
  ∀ coordinates, t.guardedInterpolate coordinates = t.interpolate coordinates ∧
    ∀ e, t.interpolate coordinates = .error e → e.InBounds

/-- Calls on the draft, wiring it and reading its tables pass no end. A table to be registered must have a
grid whose nodes can be counted. -/
structure Draft.InBounds (d : Draft α) : Prop where
  calls : ∀ c : DraftCall α, ¬ c.Oversized d → ∀ e d', c.run.run d = .error e d' → e.InBounds
  wire : ∀ e, d.wire = .error e → e.InBounds
  build : ∀ e, d.build = .error e → e.InBounds
  tables : ∀ t ∈ d.tables, t.InBounds

/-- Calls on the model, computing one of its blocks, telling its inputs and outputs and reading its tables
pass no end. -/
structure Model.InBounds (m : Model α) : Prop where
  calls : ∀ (c : ModelCall α) e m', c.run.run m = .error e m' → e.InBounds
  cycle : Model.guardedCycle.run m = Model.cycle.run m
  value : ∀ id b, m.block? id = some b → ∀ e, m.nextValue b = .error e → e.InBounds
  kind : ∀ id b, m.block? id = some b → ∀ current xs,
    (b.kind.arity m.tables).accepts xs.length = true →
      ∃ v, b.kind.evaluate m.breakpoints m.tables current xs = .ok v
  tables : ∀ t ∈ m.tables, t.InBounds
  inputVector : m.guardedInputVector = .ok m.inputVector
  outputVector : m.guardedOutputVector = .ok m.outputVector
  inputBlock : ∀ key, m.guardedInputBlock key = .ok (m.inputBlock? key) ∧
    ∀ id, m.inputBlock? key = some id → id.index < m.blocks.size

theorem GridsSound.inBounds {sets : Array (BreakpointSet α)} {tables : Array (Table α)} {blocks : Nat}
    (h : GridsSound sets tables blocks) : ∀ t ∈ tables, t.InBounds := by
  intro t ht coordinates
  obtain ⟨i, hi⟩ := Array.mem_iff_getElem?.mp ht
  obtain ⟨hne, hvalues, hsize⟩ := h.shape i t hi
  have hpos := h.dims_pos hi
  refine ⟨Table.guardedInterpolate_eq hvalues hsize hpos (List.length_pos_iff.mpr hne) coordinates, ?_⟩
  intro e hfail
  by_cases hrank : coordinates.length = t.rank
  · obtain ⟨v, hv⟩ := Table.interpolate_total hvalues hpos hrank
    rw [hv] at hfail
    cases hfail
  · rw [Table.interpolate, if_neg hrank] at hfail
    cases hfail
    rintro _ _ ⟨⟩

theorem Draft.Sound.inBounds {d : Draft α} (hd : d.Sound) : d.InBounds where
  calls c hsized _ _ h := c.inBounds hd hsized h
  wire _ h := Draft.wire_inBounds hd h
  build _ h := Draft.build_inBounds hd h
  tables := hd.grids.inBounds

theorem Model.Sound.inBounds {m : Model α} (hm : m.Sound) : m.InBounds where
  calls c _ _ h := c.inBounds hm h
  cycle := hm.guardedCycle_run
  value id b hb _ h := hm.nextValue_inBounds (hm.edges.inputs id b hb) (hm.kinds id b hb) h
  kind id b hb current _ hfits := BlockKind.evaluate_total hm.grids (hm.kinds id b hb) current hfits
  tables := hm.grids.inBounds
  inputVector := guardedInputVector_eq hm.handlesInRange.inputs
  outputVector := guardedOutputVector_eq hm.handlesInRange.outputs
  inputBlock key := ⟨hm.handlesInRange.guardedInputBlock_eq key,
    fun id h => hm.handlesInRange.inputs id (inputBlock?_mem h)⟩

/-- Whatever calls a diagram is built by and run by, no index is past the end of what it reads. -/
theorem indexing_in_bounds :
    (∀ d : Draft α, d.Reachable → d.InBounds) ∧ ∀ m : Model α, m.Reachable → m.InBounds :=
  ⟨fun _ hd => hd.sound.inBounds, fun _ hm => hm.sound.inBounds⟩

/-- A table with an axis of two points and an axis of one, one of its values not a number, that is read
at a variable with limits. -/
def gridded : Draft Float :=
  .after "gridded"
    [ .breakpoints "A" [0, 1], .breakpoints "B" [5], .table (some "T") ["A", "B"] #[10, 0 / 0],
      .signal ((Signal.declare "x" "x" "").withLimits none (some (1 / 2))),
      .signal (Signal.declare "y" "y" ""), .function "f" "T" ["x", "x"] "y" ]

theorem gridded_in_bounds : ∃ m, gridded.build = .ok m ∧ gridded.tables.size = 1 ∧ gridded.InBounds ∧
    m.InBounds := by
  have hbuilds : gridded.build.toOption.any (fun _ => true) = true := by decide +kernel
  have htable : gridded.tables.size = 1 := by decide +kernel
  obtain ⟨m, hm, -⟩ := outcome_of_any hbuilds
  have hreachable : gridded.Reachable := Draft.reachable_after _ _
  exact ⟨m, hm, htable, indexing_in_bounds.1 gridded hreachable,
    indexing_in_bounds.2 m (Model.Reachable.built hreachable hm)⟩

end Statement

end BlockDiagram
