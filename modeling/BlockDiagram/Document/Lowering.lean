import BlockDiagram.Completion
import BlockDiagram.Document
/-! Lowering: the draft of a document. Every operator of a formula becomes a block; what its
arguments compute travels on derived signals named after the variable that is being defined. -/

namespace BlockDiagram

namespace Document

variable {α : Type} [Scalar α]

def Variable.signal (v : Variable α) : Signal α :=
  { (Signal.declare v.varId v.displayName v.units).withLimits v.min v.max with
    roles := { toDeclaredRoles := v.roles }
    initial := v.initial }

/-- Declares a derived signal of a variable under the first free number beyond `used`, and hands
back its ID and number. -/
def deriveSignal (owner : String) (used : Nat) : Drafting α (String × Nat) := do
  let numbered := fun n : Nat => s!"{owner}_t{n}"
  let n := firstFree numbered (← get).varIds (used + 1)
  let _ ← Draft.addSignal (Signal.derive (numbered n))
  return (numbered n, n)

/-- Adds a block that produces a variable, and lets its slots be bound in between. -/
def addProducer {β : Type} (name : String) (kind : BlockKind α) (output : String)
    (bindSlots : BlockId → Drafting α β) : Drafting α β := do
  let block ← Draft.addBlock name kind
  let result ← bindSlots block
  Draft.bindOutput block (.variable output)
  return result

mutual

/-- The variable that carries an argument, and the last number used for a derived signal. -/
def lowerArgument (owner : String) : Formula α → Nat → Drafting α (String × Nat)
  | .name varId, used | .var varId, used => pure (varId, used)
  | .number x, used | .const x, used => do
    let (varId, used) ← deriveSignal owner used
    addProducer s!"{varId}_const" (.constant x) varId fun _ => pure (varId, used)
  | .apply op args, used => do
    let (varId, used) ← deriveSignal owner used
    addProducer s!"{varId}_{(op.kind : BlockKind α).tag}" op.kind varId fun block => do
      let used ← lowerArguments owner block 0 args used
      return (varId, used)

def lowerArguments (owner : String) (block : BlockId) :
    Nat → List (Formula α) → Nat → Drafting α Nat
  | _, [], used => pure used
  | slot, f :: rest, used => do
    let (varId, used) ← lowerArgument owner f used
    Draft.bindInput block slot (.variable varId)
    lowerArguments owner block (slot + 1) rest used

end

/-- The blocks of a variable's own formula. A reference becomes a sum of one term. -/
def lowerFormula (owner : String) : Formula α → Drafting α Unit
  | .number x | .const x => addProducer s!"{owner}_const" (.constant x) owner fun _ => pure ()
  | .name varId | .var varId =>
    addProducer s!"{owner}_copy" .sum owner fun block => Draft.bindInput block 0 (.variable varId)
  | .apply op args =>
    addProducer s!"{owner}_{(op.kind : BlockKind α).tag}" op.kind owner fun block => do
      let _ ← lowerArguments owner block 0 args 0

def lowerFunction (f : Function α) : Drafting α Unit := do
  let table ← match f.table with
    | .shared id => pure id
    | .own axes values => do
      let id ← Draft.registerTable none axes values.toArray
      let t ← (entry (← get).tables id.index : Except (ModelError α) (Table α))
      pure t.id
  let _ ← Draft.addFunction f.name table f.inputs f.output

def forEach {β : Type} (call : β → Drafting α Unit) : List β → Drafting α Unit
  | [] => pure ()
  | b :: rest => do
    call b
    forEach call rest

/-- The calls that build the draft of a document. -/
def lower (doc : Document α) : Drafting α Unit := do
  forEach (fun b => do let _ ← Draft.registerBreakpoints b.id b.values) doc.breakpoints
  forEach (fun t => do let _ ← Draft.registerTable (some t.id) t.axes t.values.toArray) doc.tables
  forEach (fun v => do let _ ← Draft.addSignal v.signal) doc.vars
  forEach lowerFunction doc.functions
  forEach (fun v => v.calculation.forM (lowerFormula v.varId)) doc.vars

def draft (doc : Document α) : Except (ModelError α) (Draft α) :=
  match doc.lower.run (Draft.empty doc.name) with
  | .ok _ d => .ok d
  | .error e _ => .error e

def build (doc : Document α) : Except (ModelError α) (Model α) := do
  (← doc.draft).build

end Document

end BlockDiagram
