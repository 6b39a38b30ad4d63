import BlockDiagram.Block
/-! Models: wired diagrams. Every slot holds a signal, and both ends of each wire are recorded. -/

namespace BlockDiagram

structure Model (α : Type) where
  name : String
  signals : Array (Signal α) := #[]
  blocks : Array (Block α) := #[]
  breakpoints : Array (BreakpointSet α) := #[]
  tables : Array (Table α) := #[]
  /-- The input blocks, in the order they were added. -/
  inputs : List BlockId := []
  /-- The output blocks, in the order they were added. -/
  outputs : List BlockId := []
  /-- The execution order, once one has been found for the present wiring. -/
  order : Option (List BlockId) := none
  epoch : Epoch := Epoch.zero
  /-- The output records of the last cycle. -/
  results : List (Record α) := []

/-- A call on a model. What a failing call has already done to the model stays done. -/
abbrev Running (α β : Type) := EStateM (ModelError α) (Model α) β

namespace Model

variable {α : Type}

def varIds (m : Model α) : List String := m.signals.toList.map Signal.varId

def blockNames (m : Model α) : List String := m.blocks.toList.map Block.name

def blockIds (m : Model α) : List BlockId := Handle.all m.blocks.size

def signalIds (m : Model α) : List SignalId := Handle.all m.signals.size

def signal? (m : Model α) (id : SignalId) : Option (Signal α) := m.signals[id.index]?

def block? (m : Model α) (id : BlockId) : Option (Block α) := m.blocks[id.index]?

def signalId? (m : Model α) (varId : String) : Option SignalId :=
  (m.signals.findIdx? fun s => s.varId == varId).map Handle.mk

def signalNamed? (m : Model α) (varId : String) : Option (Signal α) := do
  m.signal? (← m.signalId? varId)

def blockId? (m : Model α) (name : String) : Option BlockId :=
  (m.blocks.findIdx? fun b => b.name == name).map Handle.mk

def breakpointsNamed? (m : Model α) (id : String) : Option (BreakpointSet α) :=
  m.breakpoints.find? fun s => s.id == id

def tableNamed? (m : Model α) (id : String) : Option (Table α) :=
  m.tables.find? fun t => t.id == id

def tableOf? (m : Model α) (id : BlockId) : Option (Table α) := do
  match (← m.block? id).kind with
  | .lookup table => m.tables[table.index]?
  | _ => none

def breakpointsOf? (m : Model α) (id : BlockId) : Option (BreakpointSet α) := do
  match (← m.block? id).kind with
  | .normalizer set => m.breakpoints[set.index]?
  | _ => none

def inputsOf (m : Model α) (id : BlockId) : List (Signal α) :=
  match m.block? id with
  | some b => b.inputs.filterMap m.signal?
  | none => []

def outputOf? (m : Model α) (id : BlockId) : Option (Signal α) := do
  m.signal? (← (← m.block? id).output)

/-- The lookup blocks, in the order they were added. -/
def lookups (m : Model α) : List BlockId :=
  m.blockIds.filter fun id => (m.block? id).any fun b => b.kind.isLookup

/-- Counts of the given names, in the order of their first occurrence. -/
def tally : List String → List (String × Nat)
  | [] => []
  | t :: rest => (t, 1 + rest.count t) :: (tally rest).filter fun entry => entry.1 ≠ t

/-- The number of blocks with each tag, in the order the tags first occur. -/
def census (m : Model α) : List (String × Nat) := tally (m.blocks.toList.map fun b => b.kind.tag)

/-- The value a variable has now, which is that of its producer. -/
def valueOf? (m : Model α) (varId : String) : Option α := do
  let source ← (← m.signalNamed? varId).source
  return (← m.block? source.block).value

/-- The record of a signal, with the value of the block that stands for it. -/
def record? (m : Model α) (block : BlockId) (signal : SignalId) : Option (Record α) := do
  let s ← m.signal? signal
  let b ← m.block? block
  return { name := s.name, varId := s.varId, units := s.units, value := b.value,
           lower := s.lower, upper := s.upper }

def inputRecord? (m : Model α) (id : BlockId) : Option (Record α) := do
  m.record? id (← (← m.block? id).output)

def outputRecord? (m : Model α) (id : BlockId) : Option (Record α) := do
  m.record? id (← (← m.block? id).inputs.head?)

/-- The input records, with present values. -/
def inputVector (m : Model α) : List (Record α) := m.inputs.filterMap m.inputRecord?

/-- The output records of the last cycle, or what they would be if outputs have been added since. -/
def outputVector (m : Model α) : List (Record α) :=
  if m.results.length = m.outputs.length then m.results
  else m.outputs.filterMap m.outputRecord?

/-- Registers a block among the inputs or outputs of a model if its kind says so. -/
def enroll (m : Model α) (id : BlockId) (kind : BlockKind α) : Model α :=
  { m with
    inputs := if kind.isInput then m.inputs ++ [id] else m.inputs
    outputs := if kind.isOutput then m.outputs ++ [id] else m.outputs }

/-- The input block a limited signal stands for: the one that feeds its limiter. -/
def limitedInput? (m : Model α) (s : Signal α) : Option BlockId := do
  let limiter ← m.block? (← s.source).block
  guard limiter.kind.isLimiter
  let unlimited ← m.signal? (← limiter.inputs.head?)
  let producer := (← unlimited.source).block
  guard (m.inputs.contains producer)
  return producer

/-- The input block a key names, by the variable ID or display name of its signal, or of the limited
half of that signal. -/
def inputBlock? (m : Model α) (key : String) : Option BlockId :=
  let direct := m.inputs.find? fun id => ((m.outputOf? id).map fun s => s.answersTo key).getD false
  direct <|> (m.signals.find? fun s => s.limited && s.answersTo key).bind m.limitedInput?

/-- Sets the value an input shows from the next cycle on. -/
def setInput (key : String) (value : α) : Running α Unit := do
  let m ← get
  match m.inputBlock? key with
  | none => throw (.unknownInput key)
  | some id => set { m with blocks := m.blocks.modify id.index fun b => { b with value } }

def loadInputs : List (Record α) → Running α Unit
  | [] => pure ()
  | r :: rest => do
    setInput r.varId r.value
    loadInputs rest

end Model

end BlockDiagram
