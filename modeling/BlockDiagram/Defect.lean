import BlockDiagram.Model
/-! Defects: disagreements between the parts of a model, found without evaluating it. -/

namespace BlockDiagram

inductive Defect where
  /-- Nothing produces the signal. -/
  | noSource (varId : String)
  /-- Nothing consumes the signal, and it is no output. -/
  | noSink (varId : String)
  /-- The signal names a producer that does not name it back. -/
  | sourceMismatch (varId block : String)
  /-- The signal lists a slot that is bound to another signal. -/
  | sinkMismatch (varId block : String) (slot : Nat)
  /-- A slot is bound to a signal that does not list it. -/
  | unlistedSink (block : String) (slot : Nat)
  /-- The block has an input count that its kind does not accept. -/
  | arity (block : String) (expected : Arity) (actual : Nat)
  deriving DecidableEq, Repr

namespace Defect

def kind : Defect → String
  | noSource _ => "NoSource"
  | noSink _ => "NoSink"
  | sourceMismatch _ _ => "SourceMismatch"
  | sinkMismatch _ _ _ => "SinkMismatch"
  | unlistedSink _ _ => "UnlistedSink"
  | arity _ _ _ => "Arity"

def message : Defect → String
  | noSource varId => s!"signal '{varId}' has no producer"
  | noSink varId => s!"signal '{varId}' has no consumer and is not an output"
  | sourceMismatch varId block =>
    s!"signal '{varId}' names producer '{block}', which does not output it"
  | sinkMismatch varId block slot =>
    s!"signal '{varId}' lists '{block}' port {slot}, which is bound elsewhere"
  | unlistedSink block slot => s!"block '{block}' port {slot} is not listed by its signal"
  | arity block expected actual => s!"block '{block}' expects {expected.text} inputs, has {actual}"

end Defect

namespace Model

variable {α : Type}

def sourceDefects (m : Model α) (id : SignalId) (s : Signal α) : List Defect :=
  match s.source with
  | none => [.noSource s.varId]
  | some source =>
    if (m.block? source.block).any fun b => b.output == some id then []
    else [.sourceMismatch s.varId ((m.block? source.block).elim source.block.text Block.name)]

def sinkDefects (m : Model α) (id : SignalId) (s : Signal α) : List Defect :=
  s.sinks.filterMap fun e =>
    if (m.block? e.block).any fun b => b.inputs[e.slot]? == some id then none
    else some (.sinkMismatch s.varId ((m.block? e.block).elim e.block.text Block.name) e.slot)

def signalDefects (m : Model α) (id : SignalId) (s : Signal α) : List Defect :=
  m.sourceDefects id s
    ++ (if s.sinks.isEmpty && !s.roles.output then [.noSink s.varId] else [])
    ++ m.sinkDefects id s

def blockDefects (m : Model α) (id : BlockId) (b : Block α) : List Defect :=
  let unlisted := b.inputs.zipIdx.filterMap fun (signal, slot) =>
    if (m.signal? signal).any fun s => s.sinks.contains ⟨id, slot⟩ then none
    else some (Defect.unlistedSink b.name slot)
  let arity := b.kind.arity m.tables
  unlisted ++
    if arity.accepts b.inputs.length then [] else [.arity b.name arity b.inputs.length]

/-- Every defect: those of the signals, then those of the blocks, each in arena order. -/
def defects (m : Model α) : List Defect :=
  (m.signals.toList.zipIdx.flatMap fun (s, i) => m.signalDefects ⟨i⟩ s)
    ++ m.blocks.toList.zipIdx.flatMap fun (b, i) => m.blockDefects ⟨i⟩ b

end Model

end BlockDiagram
