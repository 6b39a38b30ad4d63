import BlockDiagram.Draft
import BlockDiagram.Proofs.Call
import BlockDiagram.Proofs.Names
/-! Calls on drafts: what each call does to the draft, and which drafts can be reached. -/

namespace BlockDiagram

open Call

namespace Draft

variable {α : Type}

theorem addSignal_run (s : Signal α) (d : Draft α) :
    (addSignal s).run d =
      if s.varId ∈ d.varIds then .error (.duplicateVariable s.varId) d
      else .ok ⟨d.signals.size⟩ { d with signals := d.signals.push s.unwired } := by
  by_cases h : s.varId ∈ d.varIds
  · simp [addSignal, h]
  · simp [addSignal, h]

theorem addBlock_run (name : String) (kind : BlockKind α) (d : Draft α) :
    (addBlock name kind).run d =
      match d.enlist ⟨d.blocks.size⟩ kind with
      | .error e => .error e d
      | .ok d₁ => .ok ⟨d.blocks.size⟩
          { d₁ with blocks := d₁.blocks.push { name := freshName d₁.blockNames name, kind } } := by
  cases h : d.enlist ⟨d.blocks.size⟩ kind with
  | ok d₁ => simp [addBlock, h]
  | error e => simp [addBlock, h]

/-- The block a binding call may change, once the reference has been checked. -/
def bindable (d : Draft α) (block : BlockId) (r : Reference) :
    Except (ModelError α) (DraftBlock α) := do
  d.checkReference r
  d.blockAt block

theorem bindable_ok {d : Draft α} {block : BlockId} {r : Reference} {b : DraftBlock α} :
    d.bindable block r = .ok b ↔ d.checkReference r = .ok () ∧ d.blocks[block.index]? = some b := by
  have hblock : d.blockAt block = .ok b ↔ d.blocks[block.index]? = some b := by
    unfold blockAt
    cases d.blocks[block.index]? with
    | some x => simp
    | none => simp
  rw [bindable, outcome_bind_ok, hblock]
  constructor
  · rintro ⟨⟨⟩, hr, hb⟩
    exact ⟨hr, hb⟩
  · rintro ⟨hr, hb⟩
    exact ⟨(), hr, hb⟩

theorem bindInput_run (block : BlockId) (slot : Nat) (r : Reference) (d : Draft α) :
    (bindInput block slot r).run d =
      match d.bindable block r with
      | .error e => .error e d
      | .ok b => .ok () { d with
          blocks := d.blocks.setIfInBounds block.index (b.bind slot r) } := by
  cases hr : d.checkReference r with
  | error e => simp [bindInput, bindable, hr]
  | ok u =>
      cases hb : d.blockAt block with
      | error e => simp [bindInput, bindable, hr, hb]
      | ok b => simp [bindInput, bindable, hr, hb]

theorem bindOutput_run (block : BlockId) (r : Reference) (d : Draft α) :
    (bindOutput block r).run d =
      match d.bindable block r with
      | .error e => .error e d
      | .ok b =>
        if b.kind.hasOutput then
          .ok () { d with blocks := d.blocks.setIfInBounds block.index { b with output := some r } }
        else .error (.violation (.noOutput b.name)) d := by
  cases hr : d.checkReference r with
  | error e => simp [bindOutput, bindable, hr]
  | ok u =>
      cases hb : d.blockAt block with
      | error e => simp [bindOutput, bindable, hr, hb]
      | ok b => cases ho : b.kind.hasOutput <;> simp [bindOutput, bindable, hr, hb, ho]

theorem registerBreakpoints_run [Arithmetic α] (id : String) (values : List α) (d : Draft α) :
    (registerBreakpoints id values).run d =
      if d.breakpoints.any fun s => s.id == id then .error (.duplicateId .breakpoints id) d
      else
        match BreakpointSet.ofValues id values with
        | .error e => .error e d
        | .ok s => .ok ⟨d.breakpoints.size⟩ { d with breakpoints := d.breakpoints.push s } := by
  unfold registerBreakpoints
  rw [EStateM.run_bind, EStateM.run_get]
  cases h : d.breakpoints.any fun s => s.id == id with
  | true => simp only [h, ↓reduceIte, EStateM.run_bind, EStateM.run_throw]
  | false =>
      simp only [h, Bool.false_eq_true, ↓reduceIte, EStateM.run_bind, run_lift]
      cases BreakpointSet.ofValues id values with
      | error e => rfl
      | ok s => rfl

/-- The number of the next free anonymous table. -/
def nextAnonymous (d : Draft α) : Nat :=
  firstFree (fun n => s!"anon_table_{n}") d.tableIds (d.anonymous + 1)

/-- The ID a table is to have: the given one, or the next free anonymous one. -/
def claimedId (d : Draft α) : Option String → String
  | some id => id
  | none => s!"anon_table_{d.nextAnonymous}"

/-- The draft once an ID has been claimed: the counter of anonymous tables stays advanced. -/
def claimed (d : Draft α) : Option String → Draft α
  | some _ => d
  | none => { d with anonymous := d.nextAnonymous }

theorem claimTableId_run (id : Option String) (d : Draft α) :
    (claimTableId id).run d =
      if ∃ i ∈ id, i ∈ d.tableIds then .error (.duplicateId .tables (d.claimedId id)) d
      else .ok (d.claimedId id) (d.claimed id) := by
  cases id with
  | none => simp [claimTableId, claimedId, claimed, nextAnonymous]
  | some id =>
      by_cases h : id ∈ d.tableIds
      · simp [claimTableId, claimedId, h]
      · simp [claimTableId, claimedId, claimed, h]

theorem claimedId_not_mem {d : Draft α} {id : Option String} (h : ¬ ∃ i ∈ id, i ∈ d.tableIds) :
    d.claimedId id ∉ d.tableIds := by
  cases id with
  | none => exact firstFree_not_mem (numbered_injective "anon_table_") d.tableIds (d.anonymous + 1)
  | some id => exact fun hin => h ⟨id, rfl, hin⟩

@[simp] theorem claimed_tables (d : Draft α) (id : Option String) :
    (d.claimed id).tables = d.tables := by
  cases id <;> rfl

theorem claimed_axesNamed (d : Draft α) (id : Option String) :
    (d.claimed id).axesNamed = d.axesNamed := by
  cases id <;> rfl

theorem registerTable_run (id : Option String) (axes : List String) (values : Array α)
    (d : Draft α) :
    (registerTable id axes values).run d =
      if ∃ i ∈ id, i ∈ d.tableIds then .error (.duplicateId .tables (d.claimedId id)) d
      else
        match d.axesNamed axes >>= (Table.ofValues (d.claimedId id) · values) with
        | .error e => .error e (d.claimed id)
        | .ok t => .ok ⟨d.tables.size⟩ { d.claimed id with tables := d.tables.push t } := by
  unfold registerTable
  rw [EStateM.run_bind, claimTableId_run]
  by_cases h : ∃ i ∈ id, i ∈ d.tableIds
  · rw [if_pos h, if_pos h]
  · rw [if_neg h, if_neg h]
    simp only [EStateM.run_bind, EStateM.run_get, run_lift, claimed_axesNamed]
    cases hx : d.axesNamed axes with
    | error e => rfl
    | ok xs =>
        cases ht : Table.ofValues (d.claimedId id) xs values with
        | error e => simp [ht]
        | ok t => simp [ht]

section Failed

variable {d d' : Draft α} {e : ModelError α}

theorem addSignal_error {s : Signal α} (h : (addSignal s).run d = .error e d') : d' = d := by
  rw [addSignal_run] at h
  split at h
  · cases h
    rfl
  · cases h

theorem addBlock_error {name : String} {k : BlockKind α} (h : (addBlock name k).run d = .error e d') :
    d' = d := by
  rw [addBlock_run] at h
  split at h
  · cases h
    rfl
  · cases h

theorem bindInput_error {id : BlockId} {slot : Nat} {r : Reference}
    (h : (bindInput id slot r).run d = .error e d') : d' = d := by
  rw [bindInput_run] at h
  split at h
  · cases h
    rfl
  · cases h

theorem bindOutput_error {id : BlockId} {r : Reference}
    (h : (bindOutput id r).run d = .error e d') : d' = d := by
  rw [bindOutput_run] at h
  split at h
  · cases h
    rfl
  · split at h
    · cases h
    · cases h
      rfl

theorem registerBreakpoints_error [Arithmetic α] {id : String} {values : List α}
    (h : (registerBreakpoints id values).run d = .error e d') : d' = d := by
  rw [registerBreakpoints_run] at h
  split at h
  · cases h
    rfl
  · split at h
    · cases h
      rfl
    · cases h

/-- A table that is refused may have claimed a number. -/
theorem registerTable_error {id : Option String} {axes : List String} {values : Array α}
    (h : (registerTable id axes values).run d = .error e d') : d' = d ∨ d' = d.claimed id := by
  rw [registerTable_run] at h
  split at h
  · cases h
    exact .inl rfl
  · split at h
    · cases h
      exact .inr rfl
    · cases h

end Failed

end Draft

end BlockDiagram
