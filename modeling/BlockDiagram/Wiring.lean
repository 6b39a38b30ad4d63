import BlockDiagram.Draft
import BlockDiagram.Model
/-! Wiring: the model of a draft, with every reference resolved and every wire recorded at both
ends. -/

namespace BlockDiagram

namespace Draft

variable {α : Type}

def resolve (d : Draft α) (block : String) : Reference → Except (ModelError α) SignalId
  | .signal id => .ok id
  | .variable varId =>
    match d.signalId? varId with
    | some id => .ok id
    | none => .error (.unresolved block varId)

/-- The signals of a block's slots, which must all be bound, from `slot` on. -/
def resolveSlots (d : Draft α) (block : String) :
    Nat → List (Option Reference) → Except (ModelError α) (List SignalId)
  | _, [] => .ok []
  | slot, none :: _ => .error (.unboundSlot block slot)
  | slot, some r :: rest => do
    let s ← d.resolve block r
    return s :: (← d.resolveSlots block (slot + 1) rest)

/-- Records the slots of a block, from `slot` on, as consumers of the signals they read. -/
def listSlots (block : BlockId) :
    Nat → List SignalId → Array (Signal α) → Except (ModelError α) (Array (Signal α))
  | _, [], signals => .ok signals
  | slot, id :: rest, signals => do
    let s ← entry signals id.index
    listSlots block (slot + 1) rest
      (signals.setIfInBounds id.index { s with sinks := s.sinks ++ [⟨block, slot⟩] })

/-- Makes a block the producer of a signal, which must not have one. -/
def claimOutput (m : Model α) (block : BlockId) (name : String) (id : SignalId) :
    Except (ModelError α) (Model α) := do
  let s ← entry m.signals id.index
  match s.source with
  | some first =>
    let b ← entry m.blocks first.block.index
    throw (.duplicateSource s.varId b.name name)
  | none =>
    return { m with
      signals := m.signals.setIfInBounds id.index { s with source := some ⟨block, 0⟩ } }

variable [Arithmetic α]

/-- Adds the next block of a draft to the model of the blocks before it. -/
def wireBlock (d : Draft α) (m : Model α) (b : DraftBlock α) : Except (ModelError α) (Model α) := do
  let id : BlockId := ⟨m.blocks.size⟩
  let inputs ← d.resolveSlots b.name 0 b.inputs
  let signals ← listSlots id 0 inputs m.signals
  let m := { m with signals }
  let output ← b.output.mapM (d.resolve b.name)
  let m ← match output with
    | some s => claimOutput m id b.name s
    | none => pure m
  let block : Block α :=
    { name := b.name, kind := b.kind, inputs, output, value := b.kind.initialValue }
  return { m with blocks := m.blocks.push block }.enroll id b.kind

/-- The model of a draft. The first block that cannot be wired decides the failure. -/
def wire (d : Draft α) : Except (ModelError α) (Model α) :=
  d.blocks.toList.foldlM d.wireBlock
    { name := d.name, signals := d.signals, breakpoints := d.breakpoints, tables := d.tables }

end Draft

end BlockDiagram
