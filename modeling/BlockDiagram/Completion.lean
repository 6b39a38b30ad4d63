import BlockDiagram.Wiring
/-! Completion: the limiters, sources and taps that connect every signal of a model at both ends. -/

namespace BlockDiagram

namespace Signal

variable {α : Type}

/-- The half in front of a limiter: it keeps the producer and the roles of an input, and feeds the
limiter only. -/
def beforeLimiter (s : Signal α) (varId : String) (limiter : BlockId) : Signal α :=
  { s with
    varId
    name := s.name ++ "_unlim"
    roles := { s.roles with output := false, derived := true }
    limited := true
    sinks := [⟨limiter, 0⟩] }

/-- The half behind a limiter: it keeps the names, the limits, the consumers and the role of an
output. -/
def afterLimiter (s : Signal α) (limiter : BlockId) : Signal α :=
  { s with
    roles := { s.roles with input := false, control := false, disturbance := false }
    initial := none
    limited := true
    source := some ⟨limiter, 0⟩ }

end Signal

namespace Model

variable {α : Type}

/-- Adds a block, numbering its name if it is taken. The execution order no longer holds. -/
def addBlock (m : Model α) (b : Block α) : Model α :=
  let b := { b with name := freshName m.blockNames b.name }
  { m with blocks := m.blocks.push b, order := none }.enroll ⟨m.blocks.size⟩ b.kind

def rebind (signal : SignalId) (e : Endpoint) : Running α Unit := do
  let m ← get
  let b ← (entry m.blocks e.block.index : Except (ModelError α) (Block α))
  if e.slot < b.inputs.length then
    set { m with
      blocks :=
        m.blocks.setIfInBounds e.block.index { b with inputs := b.inputs.set e.slot signal } }
  else throw (.outOfBounds e.slot b.inputs.length)

def rebindAll (signal : SignalId) : List Endpoint → Running α Unit
  | [] => pure ()
  | e :: rest => do
    rebind signal e
    rebindAll signal rest

variable [Scalar α]

/-- Splits a signal by a limiter: the consumers move to the limited half, which takes over the
variable ID. -/
def limitSignal (id : SignalId) : Running α Unit := do
  let m ← get
  let s ← (entry m.signals id.index : Except (ModelError α) (Signal α))
  let limited : SignalId := ⟨m.signals.size⟩
  let limiter : BlockId := ⟨m.blocks.size⟩
  let before := s.beforeLimiter (freshName m.varIds (s.varId ++ "_unlim")) limiter
  let kind := BlockKind.limiterBetween s.lower s.upper
  let m : Model α := { m with
    signals := (m.signals.setIfInBounds id.index before).push (s.afterLimiter limiter) }
  set (m.addBlock
    { name := s.varId ++ "_limiter", kind, inputs := [id], output := some limited,
      value := kind.initialValue })
  rebindAll limited s.sinks

/-- Splits every signal that has a finite limit and no limiter. -/
def limitSignals : List SignalId → Running α Unit
  | [] => pure ()
  | id :: rest => do
    limitSignal id
    limitSignals rest

/-- Gives a signal without producer a source: a constant if it has an initial value and the caller
does not drive it, else an input that starts at the initial value or zero. -/
def feedSignal (id : SignalId) : Running α Unit := do
  let m ← get
  let s ← (entry m.signals id.index : Except (ModelError α) (Signal α))
  if s.source.isSome then
    return
  let (suffix, kind) : String × BlockKind α := match s.initial with
    | some value => if s.roles.isExternal then ("_input", .input) else ("_const", .constant value)
    | none => ("_input", .input)
  let block : BlockId := ⟨m.blocks.size⟩
  let m : Model α := { m with
    signals := m.signals.setIfInBounds id.index { s with source := some ⟨block, 0⟩ } }
  set (m.addBlock
    { name := s.varId ++ suffix, kind, output := some id,
      value := s.initial.getD (Arithmetic.ofNat 0) })

def feedSignals : List SignalId → Running α Unit
  | [] => pure ()
  | id :: rest => do
    feedSignal id
    feedSignals rest

def isTapped (m : Model α) (sinks : List Endpoint) : Except (ModelError α) Bool := do
  let consumers ← sinks.mapM fun e => entry m.blocks e.block.index
  return consumers.any fun b => b.kind.isOutput

/-- Gives a signal that has no consumer, or the role of an output, an output block if it has none.
-/
def tapSignal (id : SignalId) : Running α Unit := do
  let m ← get
  let s ← (entry m.signals id.index : Except (ModelError α) (Signal α))
  let tapped ← m.isTapped s.sinks
  if tapped || !(s.sinks.isEmpty || s.roles.output) then
    return
  let block : BlockId := ⟨m.blocks.size⟩
  let m : Model α := { m with
    signals := m.signals.setIfInBounds id.index { s with sinks := s.sinks ++ [⟨block, 0⟩] } }
  set (m.addBlock
    { name := s.varId ++ "_output", kind := .output, inputs := [id], value := Arithmetic.ofNat 0 })

def tapSignals : List SignalId → Running α Unit
  | [] => pure ()
  | id :: rest => do
    tapSignal id
    tapSignals rest

/-- Connects every signal at both ends. On a complete model this adds nothing. -/
def complete : Running α Unit := do
  let m ← get
  limitSignals (m.signalIds.filter fun id => (m.signal? id).any Signal.needsLimiter)
  feedSignals (← get).signalIds
  tapSignals (← get).signalIds

end Model

namespace Draft

variable {α : Type} [Scalar α]

/-- The complete model of a draft. -/
def build (d : Draft α) : Except (ModelError α) (Model α) := do
  let m ← d.wire
  match Model.complete.run m with
  | .ok _ m => return m
  | .error e _ => throw e

end Draft

end BlockDiagram
