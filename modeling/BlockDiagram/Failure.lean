import BlockDiagram.Handle
import BlockDiagram.Scalar
/-! Failures of building, wiring, scheduling and evaluating a diagram, one constructor a cause. -/

namespace BlockDiagram

/-- The input counts an operator accepts. -/
inductive Arity where
  | exactly (count : Nat)
  | atLeast (count : Nat)
  /-- Both ends are accepted. -/
  | between (least most : Nat)
  deriving DecidableEq, Repr

namespace Arity

def accepts : Arity → Nat → Bool
  | exactly k, n => n == k
  | atLeast k, n => k ≤ n
  | between lo hi, n => lo ≤ n && n ≤ hi

def text : Arity → String
  | exactly k => s!"exactly {k}"
  | atLeast k => s!"at least {k}"
  | between lo hi => s!"{lo} to {hi}"

end Arity

/-- A scalar that had to be finite and was not. -/
structure NonFinite (α : Type) where
  what : String
  value : α

/-- Rules of use or of consistency that a call broke. -/
inductive Violation where
  | handle (arena : Arena) (index : Nat)
  | noOutput (block : String)
  | noProducer (varId : String)
  | scheduledEarly (block : String)
  | coordinates (table : String) (rank given : Nat)
  | bareMinus
  deriving DecidableEq, Repr

/-- Registries whose entries are named by the caller. -/
inductive Registry where
  | breakpoints | tables
  deriving DecidableEq, Repr

inductive ModelError (α : Type) where
  /-- A slot names a variable that no signal declares. -/
  | unresolved (block varId : String)
  /-- A slot below a bound one is not bound. -/
  | unboundSlot (block : String) (slot : Nat)
  | arity (block tag : String) (expected : Arity) (actual : Nat)
  /-- The blocks that wait for each other, or for one that does. -/
  | loop (blocks : List String)
  | missingBreakpoints (id : String)
  | missingTable (id : String)
  | emptyBreakpoints (id : String)
  /-- The breakpoint at `index` is below the one before it. -/
  | decreasing (id : String) (index : Nat)
  | tableShape (id : String) (expected actual : Nat)
  | duplicateVariable (varId : String)
  | duplicateId (registry : Registry) (id : String)
  | duplicateSource (varId first second : String)
  | unknownInput (key : String)
  | violation (v : Violation)
  | nonFinite (e : NonFinite α)
  /-- A number that is not below its bound: an index past the end of the sequence it reads, or a size that no
  word holds. The program stops there. -/
  | outOfBounds (value bound : Nat)

variable {α : Type}

namespace NonFinite

def message [Scalar α] (e : NonFinite α) : String :=
  s!"{e.what} must be finite, got {Scalar.text e.value}"

end NonFinite

def finite? [Arithmetic α] (what : String) (x : α) : Except (NonFinite α) α :=
  if Arithmetic.isFinite x then .ok x else .error ⟨what, x⟩

namespace Violation

def message : Violation → String
  | handle arena index => s!"{arena.text} handle {index} out of range"
  | noOutput block => s!"block '{block}' has no output port"
  | noProducer varId => s!"signal '{varId}' has no producer"
  | scheduledEarly block => s!"block '{block}' scheduled before its inputs"
  | coordinates table rank given => s!"table '{table}' has {rank} axes, got {given} coordinates"
  | bareMinus => "minus evaluated without inputs"

end Violation

namespace Registry

def text : Registry → String
  | breakpoints => "breakpoint set"
  | tables => "function table"

end Registry

namespace ModelError

def kind : ModelError α → String
  | unresolved _ _ => "UnresolvedReference"
  | unboundSlot _ _ => "UnboundPort"
  | arity _ _ _ _ => "ArityMismatch"
  | loop _ => "AlgebraicLoop"
  | missingBreakpoints _ => "MissingBreakpointSet"
  | missingTable _ => "MissingFuncTable"
  | emptyBreakpoints _ => "EmptyBreakpointSet"
  | decreasing _ _ => "NonMonotonicBreakpoints"
  | tableShape _ _ _ => "TableShape"
  | duplicateVariable _ => "DuplicateVarId"
  | duplicateId _ _ => "DuplicateId"
  | duplicateSource _ _ _ => "DuplicateSource"
  | unknownInput _ => "UnknownInput"
  | violation _ => "Invariant"
  | nonFinite _ => "Core"
  | outOfBounds _ _ => "OutOfBounds"

variable [Scalar α]

def message : ModelError α → String
  | unresolved block varId => s!"Block '{block}' references undefined variable '{varId}'"
  | unboundSlot block slot => s!"Block '{block}' has no binding for input port {slot}"
  | arity block tag expected actual =>
    s!"Block '{block}' ({tag}) expects {expected.text} inputs, has {actual}"
  | loop blocks =>
    let names := ", ".intercalate blocks
    s!"Algebraic loop detected: {blocks.length} blocks cannot be scheduled ({names})"
  | missingBreakpoints id => s!"Breakpoint set '{id}' is not registered"
  | missingTable id => s!"Function table '{id}' is not registered"
  | emptyBreakpoints id => s!"Breakpoint set '{id}' is empty"
  | decreasing id index => s!"Breakpoint set '{id}' decreases at index {index}"
  | tableShape id expected actual =>
    s!"Function table '{id}' has {actual} values, axes require {expected}"
  | duplicateVariable varId => s!"Variable '{varId}' is declared more than once"
  | duplicateId registry id => s!"Duplicate {registry.text} ID '{id}'"
  | duplicateSource varId first second =>
    s!"Variable '{varId}' is produced by both '{first}' and '{second}'"
  | unknownInput key => s!"'{key}' is not a model input"
  | violation v => s!"Invariant violated: {v.message}"
  | nonFinite e => e.message
  | outOfBounds value bound => s!"{value} is not below its bound {bound}"

end ModelError

/-- An outcome that touches no state is a call that leaves its state alone. -/
instance liftOutcome {ε σ : Type} : MonadLift (Except ε) (EStateM ε σ) where
  monadLift
    | .ok x => pure x
    | .error e => throw e

/-- The entry at an index, or the failure of reading past the end. -/
def entry {β : Type} (xs : Array β) (i : Nat) : Except (ModelError α) β :=
  match xs[i]? with
  | some x => .ok x
  | none => .error (.outOfBounds i xs.size)

/-- A size, which a word must hold. -/
def inWord (n : Nat) : Except (ModelError α) Nat :=
  if n < wordSize then .ok n else .error (.outOfBounds n wordSize)

end BlockDiagram
