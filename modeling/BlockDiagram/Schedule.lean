import BlockDiagram.Model
/-! Scheduling: an execution order is found by passes over the blocks, and cycles walk it. -/

namespace BlockDiagram

namespace Model

variable {α : Type}

/-- The values on the given signals in the present epoch; none if some producer has not run in it.
-/
def inputValues (m : Model α) : List SignalId → Except (ModelError α) (Option (List α))
  | [] => .ok (some [])
  | id :: rest => do
    let s ← entry m.signals id.index
    match s.source with
    | none => throw (.violation (.noProducer s.varId))
    | some source =>
      let producer ← entry m.blocks source.block.index
      if producer.isCurrent m.epoch then
        return (← m.inputValues rest).map (producer.value :: ·)
      else return none

variable [Scalar α]

/-- The value a block takes in the present epoch; none while an input is stale. -/
def nextValue (m : Model α) (b : Block α) : Except (ModelError α) (Option α) := do
  let arity := b.kind.arity m.tables
  if !arity.accepts b.inputs.length then
    throw (.arity b.name b.kind.tag arity b.inputs.length)
  match ← m.inputValues b.inputs with
  | none => return none
  | some xs => return some (← b.kind.evaluate m.breakpoints m.tables b.value xs)

/-- Computes a block if its inputs are current, and tells whether it did. A stale input leaves the
block as it is. -/
def refresh (id : BlockId) : Running α Bool := do
  let m ← get
  let b ← (entry m.blocks id.index : Except (ModelError α) (Block α))
  match ← m.nextValue b with
  | none => return false
  | some value =>
    set { m with
      blocks := m.blocks.setIfInBounds id.index { b with value, computed := some m.epoch } }
    return true

def runPass : List BlockId → Running α Unit
  | [] => pure ()
  | id :: rest => do
    let _ ← refresh id
    runPass rest

def isReady (m : Model α) (id : BlockId) : Bool := (m.block? id).any fun b => b.isCurrent m.epoch

def nameOf (m : Model α) (id : BlockId) : String := (m.block? id).elim id.text Block.name

/-- Passes over the pending blocks until none is left. What a pass makes ready joins the order
behind what was ready before; a pass that makes nothing ready ends in a loop. -/
def schedulePending (pending order : List BlockId) : Running α (List BlockId) := do
  if pending.isEmpty then
    return order
  runPass pending
  let m ← get
  let (ready, stuck) := pending.partition m.isReady
  if _h : stuck.length < pending.length then
    schedulePending stuck (order ++ ready)
  else throw (.loop (stuck.map m.nameOf))
termination_by pending.length

/-- Finds the execution order, evaluating every block on the way. -/
def schedule : Running α Unit := do
  let order ← schedulePending (← get).blockIds []
  modify fun m => { m with order := some order }

def runBlock (id : BlockId) : Running α Unit := do
  if !(← refresh id) then
    throw (.violation (.scheduledEarly ((← get).nameOf id)))

def runOrder : List BlockId → Running α Unit
  | [] => pure ()
  | id :: rest => do
    runBlock id
    runOrder rest

/-- Brings the output records up to date; they are made anew only if their number has changed. -/
def harvest (m : Model α) : Model α :=
  { m with
    results := (m.outputVector.zip m.outputs).map fun (r, id) =>
      { r with value := (m.block? id).elim r.value Block.value } }

def advance (m : Model α) : Model α := { m with epoch := m.epoch.advance }

/-- Finds an execution order unless there is one, evaluating the model once. -/
def prepare : Running α Unit := do
  if (← get).order.isSome then
    return
  modify advance
  schedule
  modify harvest

def cycle : Running α Unit := do
  modify advance
  match (← get).order with
  | none => schedule
  | some order => runOrder order
  modify harvest

end Model

end BlockDiagram
