import BlockDiagram.Block
/-! Drafts: diagrams under construction, whose slots may name variables that are declared later. -/

namespace BlockDiagram

/-- What a slot is bound to: a declared signal, or a variable looked up when the draft is wired. -/
inductive Reference where
  | signal (id : SignalId)
  | variable (varId : String)
  deriving DecidableEq, Repr

/-- A block of a draft; a slot below the highest bound one may still be open. -/
structure DraftBlock (α : Type) where
  name : String
  kind : BlockKind α
  inputs : List (Option Reference) := []
  output : Option Reference := none

/-- Identity of a normalizer: one exists for each breakpoint set and input variable. -/
structure NormalizerKey where
  breakpoints : BreakpointId
  input : String
  deriving DecidableEq, Repr

structure Draft (α : Type) where
  name : String
  signals : Array (Signal α) := #[]
  blocks : Array (DraftBlock α) := #[]
  breakpoints : Array (BreakpointSet α) := #[]
  tables : Array (Table α) := #[]
  /-- The index-and-fraction variable of each normalizer. -/
  normalizers : List (NormalizerKey × String) := []
  /-- Numbers up to this one have been tried as IDs of anonymous tables. -/
  anonymous : Nat := 0

/-- A call on a draft. What a failing call has already done to the draft stays done. -/
abbrev Drafting (α β : Type) := EStateM (ModelError α) (Draft α) β

namespace DraftBlock

variable {α : Type}

/-- Binds a slot, opening the slots below it if need be. -/
def bind (b : DraftBlock α) (slot : Nat) (r : Reference) : DraftBlock α :=
  { b with
    inputs := (b.inputs ++ List.replicate (slot + 1 - b.inputs.length) none).set slot (some r) }

end DraftBlock

namespace Draft

variable {α : Type}

def empty (name : String) : Draft α := { name }

def varIds (d : Draft α) : List String := d.signals.toList.map Signal.varId

def blockNames (d : Draft α) : List String := d.blocks.toList.map DraftBlock.name

def tableIds (d : Draft α) : List String := d.tables.toList.map Table.id

def signalId? (d : Draft α) (varId : String) : Option SignalId :=
  (d.signals.findIdx? fun s => s.varId == varId).map Handle.mk

def breakpointsId? (d : Draft α) (id : String) : Except (ModelError α) BreakpointId :=
  match d.breakpoints.findIdx? fun s => s.id == id with
  | some i => .ok ⟨i⟩
  | none => .error (.missingBreakpoints id)

def tableId? (d : Draft α) (id : String) : Except (ModelError α) TableId :=
  match d.tables.findIdx? fun t => t.id == id with
  | some i => .ok ⟨i⟩
  | none => .error (.missingTable id)

def tableNamed (d : Draft α) (id : String) : Except (ModelError α) (Table α) := do
  let table ← d.tableId? id
  entry d.tables table.index

/-- The axis a table has along a registered breakpoint set. -/
def axis (d : Draft α) (id : String) : Except (ModelError α) Axis := do
  let set ← d.breakpointsId? id
  let s ← entry d.breakpoints set.index
  return { set, id, length := s.values.length }

def axesNamed (d : Draft α) (ids : List String) : Except (ModelError α) (List Axis) :=
  ids.mapM d.axis

/-- Lists a new block among the users of the grid data its kind reads, which must exist. -/
def enlist (d : Draft α) (block : BlockId) : BlockKind α → Except (ModelError α) (Draft α)
  | .normalizer id =>
    if id.index < d.breakpoints.size then
      .ok { d with
        breakpoints := d.breakpoints.modify id.index fun s =>
          { s with users := s.users ++ [block] } }
    else .error (.missingBreakpoints id.text)
  | .lookup id =>
    if id.index < d.tables.size then
      .ok { d with
        tables := d.tables.modify id.index fun t => { t with users := t.users ++ [block] } }
    else .error (.missingTable id.text)
  | _ => .ok d

/-- Declares a signal; wires it may carry are dropped. -/
def addSignal (s : Signal α) : Drafting α SignalId := do
  let d ← get
  if s.varId ∈ d.varIds then
    throw (.duplicateVariable s.varId)
  set { d with signals := d.signals.push s.unwired }
  return ⟨d.signals.size⟩

/-- Adds a block, numbering its name if it is taken. -/
def addBlock (name : String) (kind : BlockKind α) : Drafting α BlockId := do
  let d ← get
  let id : BlockId := ⟨d.blocks.size⟩
  let d ← d.enlist id kind
  set { d with blocks := d.blocks.push { name := freshName d.blockNames name, kind } }
  return id

def checkReference (d : Draft α) : Reference → Except (ModelError α) Unit
  | .signal id =>
    if id.index < d.signals.size then .ok ()
    else .error (.violation (.handle .signal id.index))
  | .variable _ => .ok ()

def blockAt (d : Draft α) (id : BlockId) : Except (ModelError α) (DraftBlock α) :=
  match d.blocks[id.index]? with
  | some b => .ok b
  | none => .error (.violation (.handle .block id.index))

/-- Binds an input slot. The last binding of a slot counts. -/
def bindInput (block : BlockId) (slot : Nat) (r : Reference) : Drafting α Unit := do
  let d ← get
  d.checkReference r
  let b ← d.blockAt block
  set { d with blocks := d.blocks.setIfInBounds block.index (b.bind slot r) }

/-- Makes a block the producer of a signal. The last binding counts. -/
def bindOutput (block : BlockId) (r : Reference) : Drafting α Unit := do
  let d ← get
  d.checkReference r
  let b ← d.blockAt block
  if !b.kind.hasOutput then
    throw (.violation (.noOutput b.name))
  set { d with blocks := d.blocks.setIfInBounds block.index { b with output := some r } }

def registerBreakpoints [Arithmetic α] (id : String) (values : List α) :
    Drafting α BreakpointId := do
  let d ← get
  if d.breakpoints.any fun s => s.id == id then
    throw (.duplicateId .breakpoints id)
  let s ← BreakpointSet.ofValues id values
  set { d with breakpoints := d.breakpoints.push s }
  return ⟨d.breakpoints.size⟩

/-- The ID a table is to have: the given one unless it is taken, or the next free anonymous one. -/
def claimTableId : Option String → Drafting α String
  | some id => do
    if id ∈ (← get).tableIds then
      throw (.duplicateId .tables id)
    return id
  | none => do
    let d ← get
    let numbered := fun n : Nat => s!"anon_table_{n}"
    let n := firstFree numbered d.tableIds (d.anonymous + 1)
    set { d with anonymous := n }
    return numbered n

/-- Registers a table over registered breakpoint sets, outermost axis first. -/
def registerTable (id : Option String) (axes : List String) (values : Array α) :
    Drafting α TableId := do
  let id ← claimTableId id
  let d ← get
  let axes ← d.axesNamed axes
  let t ← Table.ofValues id axes values
  set { d with tables := d.tables.push t }
  return ⟨d.tables.size⟩

variable [Scalar α]

/-- The index-and-fraction variable of an input on a breakpoint set; its normalizer is added on the
first request. -/
def addNormalizer (breakpoints input : String) : Drafting α String := do
  let d ← get
  let set ← d.breakpointsId? breakpoints
  let key : NormalizerKey := ⟨set, input⟩
  match d.normalizers.lookup key with
  | some varId => return varId
  | none =>
    let varId := freshName d.varIds s!"{input}_x_{breakpoints}"
    let signal ← addSignal (Signal.derive varId)
    let block ← addBlock s!"{varId}_bp" (.normalizer set)
    bindInput block 0 (.variable input)
    bindOutput block (.signal signal)
    modify fun d => { d with normalizers := (key, varId) :: d.normalizers }
    return varId

def bindVariables (block : BlockId) : Nat → List String → Drafting α Unit
  | _, [] => pure ()
  | slot, v :: rest => do
    bindInput block slot (.variable v)
    bindVariables block (slot + 1) rest

def addLookup (name table : String) (coordinates : List String) (output : String) :
    Drafting α BlockId := do
  let id ← (← get).tableId? table
  let block ← addBlock name (.lookup id)
  bindVariables block 0 coordinates
  bindOutput block (.variable output)
  return block

/-- Adds a function of variables given by a table: a normalizer for each axis, then a lookup. -/
def addFunction (name table : String) (inputs : List String) (output : String) :
    Drafting α BlockId := do
  let t ← (← get).tableNamed table
  if t.rank ≠ inputs.length then
    throw (.arity name "table" (.exactly t.rank) inputs.length)
  let coordinates ← (t.axes.zip inputs).mapM fun (axis, input) => addNormalizer axis.id input
  addLookup name table coordinates output

end Draft

end BlockDiagram
