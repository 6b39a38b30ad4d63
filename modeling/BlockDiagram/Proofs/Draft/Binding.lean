import BlockDiagram.Proofs.Draft.Growth
/-! Bindings: the list of what the calls on a draft have bound, kept beside it. What a draft holds at a
terminal is what the terminal was bound to last. -/

namespace BlockDiagram

open Call

/-- An input slot of a block, or its output. -/
inductive Port where
  | slot (n : Nat)
  | output
  deriving DecidableEq

/-- Slots come in ascending order, and the output behind them. -/
def Port.Before : Port → Port → Prop
  | slot n, slot m => n < m
  | slot _, output => True
  | output, _ => False

/-- A port of a block, which can be bound to a reference. -/
structure Terminal where
  block : BlockId
  port : Port
  deriving DecidableEq

/-- Blocks come in arena order. -/
def Terminal.Before (p q : Terminal) : Prop :=
  p.block.index < q.block.index ∨ p.block = q.block ∧ p.port.Before q.port

structure Binding where
  terminal : Terminal
  reference : Reference

namespace Binding

/-- The reference a terminal has been bound to last; the last binding heads the list. -/
def last? (log : List Binding) (terminal : Terminal) : Option Reference :=
  (log.find? fun b => b.terminal = terminal).map Binding.reference

theorem last?_cons (b : Binding) (log : List Binding) (terminal : Terminal) :
    last? (b :: log) terminal = if b.terminal = terminal then some b.reference else last? log terminal := by
  rw [last?, List.find?_cons]
  by_cases h : b.terminal = terminal
  · simp only [h, decide_true, ↓reduceIte, Option.map_some]
  · simp only [h, decide_false, ↓reduceIte]
    rfl

end Binding

namespace Port

/-- What a block holds in a port. -/
def held? {α : Type} (b : DraftBlock α) : Port → Option Reference
  | slot n => b.inputs[n]?.join
  | output => b.output

end Port

namespace DraftBlock

variable {α : Type} {b : DraftBlock α} {slot : Nat} {r : Reference}

theorem bind_inputs_getElem? (n : Nat) :
    (b.bind slot r).inputs[n]? =
      if n = slot then some (some r)
      else if n < b.inputs.length then b.inputs[n]?
      else if n < slot then some none
      else none := by
  rw [bind, List.getElem?_set, List.getElem?_append, List.getElem?_replicate, List.length_append,
    List.length_replicate]
  grind

theorem bind_held? (port : Port) :
    port.held? (b.bind slot r) = if .slot slot = port then some r else port.held? b := by
  cases port with
  | output => rfl
  | slot n =>
      rw [Port.held?, bind_inputs_getElem?, Port.held?]
      by_cases hn : n = slot
      · rw [if_pos hn, if_pos (congrArg Port.slot hn.symm)]
        rfl
      · rw [if_neg hn, if_neg fun heq => hn (Port.slot.inj heq).symm]
        split
        · rfl
        · rename_i hlength
          rw [List.getElem?_eq_none (Nat.not_lt.mp hlength)]
          split <;> rfl

/-- Above an open slot there is a bound one. -/
def Tight (b : DraftBlock α) : Prop :=
  ∀ n : Nat, b.inputs[n]? = some none →
    ∃ (m : Nat) (r : Reference), n < m ∧ b.inputs[m]? = some (some r)

theorem Tight.bind (h : b.Tight) : (b.bind slot r).Tight := by
  intro n hn
  rw [bind_inputs_getElem?] at hn
  split at hn
  · cases hn
  · split at hn
    · obtain ⟨m, q, hnm, hm⟩ := h n hn
      have hlength := (List.getElem?_eq_some_iff.mp hm).1
      by_cases hms : m = slot
      · exact ⟨m, r, hnm, by rw [bind_inputs_getElem?, if_pos hms]⟩
      · exact ⟨m, q, hnm, by rw [bind_inputs_getElem?, if_neg hms, if_pos hlength, hm]⟩
    · split at hn
      · exact ⟨slot, r, ‹_›, by rw [bind_inputs_getElem?, if_pos rfl]⟩
      · cases hn

end DraftBlock

namespace Draft

variable {α : Type} {d d' : Draft α}

/-- What the draft holds at a terminal. -/
def held? (d : Draft α) (terminal : Terminal) : Option Reference :=
  d.blocks[terminal.block.index]?.bind terminal.port.held?

/-- The bindings the calls on a draft have made, the last one first. A call that binds a terminal adds one;
no other call adds any. -/
inductive Logged [Arithmetic α] : Draft α → List Binding → Prop
  | empty (name : String) : Logged (Draft.empty name) []
  | signal {d d' : Draft α} {log : List Binding} {s : Signal α} {id : SignalId} : Logged d log →
      (addSignal s).run d = .ok id d' → Logged d' log
  | block {d d' : Draft α} {log : List Binding} {name : String} {kind : BlockKind α}
      {id : BlockId} : Logged d log → (addBlock name kind).run d = .ok id d' → Logged d' log
  | input {d d' : Draft α} {log : List Binding} {block : BlockId} {slot : Nat} {r : Reference} :
      Logged d log → (bindInput block slot r).run d = .ok () d' →
      Logged d' (⟨⟨block, .slot slot⟩, r⟩ :: log)
  | output {d d' : Draft α} {log : List Binding} {block : BlockId} {r : Reference} :
      Logged d log → (bindOutput block r).run d = .ok () d' →
      Logged d' (⟨⟨block, .output⟩, r⟩ :: log)
  | breakpoints {d d' : Draft α} {log : List Binding} {id : String} {values : List α}
      {set : BreakpointId} : Logged d log → (registerBreakpoints id values).run d = .ok set d' →
      Logged d' log
  | table {d d' : Draft α} {log : List Binding} {id : Option String} {axes : List String}
      {values : Array α} {table : TableId} : Logged d log →
      (registerTable id axes values).run d = .ok table d' → Logged d' log
  | noted {d : Draft α} {log : List Binding} (normalizers : List (NormalizerKey × String))
      (anonymous : Nat) : Logged d log → Logged { d with normalizers, anonymous } log

/-- What the list of bindings says is what the draft holds, and no block has open slots at its end. -/
structure Bound (d : Draft α) (log : List Binding) : Prop where
  held : ∀ terminal, d.held? terminal = Binding.last? log terminal
  tight : ∀ (i : Nat) (b : DraftBlock α), d.blocks[i]? = some b → b.Tight

namespace Bound

variable {log : List Binding}

theorem of_blocks (h : d.Bound log) (hblocks : d'.blocks = d.blocks) : d'.Bound log := by
  constructor
  · intro terminal
    rw [Draft.held?, hblocks]
    exact h.held terminal
  · rw [hblocks]
    exact h.tight

theorem addBlock (h : d.Bound log) {name : String} {kind : BlockKind α} {id : BlockId}
    (hrun : (Draft.addBlock name kind).run d = .ok id d') : d'.Bound log := by
  rw [addBlock_run] at hrun
  split at hrun
  · cases hrun
  · rename_i d₁ henlist
    cases hrun
    obtain ⟨-, hblocks, -⟩ := enlist_ok henlist
    constructor
    · intro terminal
      rw [← h.held, Draft.held?, Draft.held?, Array.getElem?_push, hblocks]
      split
      · rename_i hnew
        rw [hnew, Array.getElem?_eq_none (Nat.le_refl _)]
        cases terminal.port <;> rfl
      · rfl
    · intro i b hb
      rw [Array.getElem?_push, hblocks] at hb
      split at hb
      · cases hb
        intro n hn
        cases hn
      · exact h.tight i b hb

/-- A binding of one port of a block changes what that port holds. -/
theorem put (h : d.Bound log) {id : BlockId} {b b' : DraftBlock α} {port : Port} {r : Reference}
    (hb : d.blocks[id.index]? = some b)
    (hheld : ∀ q : Port, q.held? b' = if port = q then some r else q.held? b) (htight : b'.Tight) :
    (d.put id b').Bound (⟨⟨id, port⟩, r⟩ :: log) := by
  have hrange := (Array.getElem?_eq_some_iff.mp hb).1
  constructor
  · rintro ⟨⟨i⟩, q⟩
    rw [Binding.last?_cons, ← h.held, Draft.held?, Draft.held?]
    by_cases hi : i = id.index
    · subst hi
      rw [put_block_self hrange, hb, Option.bind_some, Option.bind_some, hheld]
      simp only [Terminal.mk.injEq, true_and]
    · rw [put_block_ne hi, if_neg]
      intro heq
      cases heq
      exact hi rfl
  · intro i c hc
    by_cases hi : i = id.index
    · subst hi
      rw [put_block_self hrange] at hc
      cases hc
      exact htight
    · rw [put_block_ne hi] at hc
      exact h.tight i c hc

end Bound

theorem Logged.bound [Arithmetic α] {log : List Binding} (h : d.Logged log) : d.Bound log := by
  induction h with
  | empty name => exact ⟨fun _ => rfl, fun i b hb => by simp [Draft.empty] at hb⟩
  | signal _ hrun ih =>
      obtain ⟨-, -, rfl⟩ := addSignal_ok hrun
      exact ih.of_blocks rfl
  | block _ hrun ih => exact ih.addBlock hrun
  | input _ hrun ih =>
      obtain ⟨b, hb, rfl⟩ := bindInput_ok hrun
      exact ih.put hb DraftBlock.bind_held? (ih.tight _ b hb).bind
  | output _ hrun ih =>
      obtain ⟨b, hb, rfl⟩ := bindOutput_ok hrun
      have htight : b.Tight := ih.tight _ b hb
      refine ih.put hb (fun q => ?_) htight
      cases q with
      | slot n => rfl
      | output => rfl
  | breakpoints _ hrun ih =>
      obtain ⟨-, -, hblocks, -⟩ := registerBreakpoints_ok hrun
      exact ih.of_blocks hblocks
  | table _ hrun ih =>
      obtain ⟨-, -, hblocks, -⟩ := registerTable_ok hrun
      exact ih.of_blocks hblocks
  | noted ns n _ ih => exact ih.of_blocks rfl

section HasLog

/-- Some list of bindings has been kept. -/
def HasLog [Arithmetic α] (d : Draft α) : Prop := ∃ log, d.Logged log

variable [Scalar α]

theorem stable_hasLog : Stable (HasLog : Draft α → Prop) where
  signal _ := keeps_of_run (fun _ _ _ ⟨_, h⟩ hrun => ⟨_, h.signal hrun⟩)
    fun _ _ _ hd hrun => addSignal_error hrun ▸ hd
  block _ _ := keeps_of_run (fun _ _ _ ⟨_, h⟩ hrun => ⟨_, h.block hrun⟩)
    fun _ _ _ hd hrun => addBlock_error hrun ▸ hd
  input _ _ _ := keeps_of_run (fun _ _ _ ⟨_, h⟩ hrun => ⟨_, h.input hrun⟩)
    fun _ _ _ hd hrun => bindInput_error hrun ▸ hd
  output _ _ := keeps_of_run (fun _ _ _ ⟨_, h⟩ hrun => ⟨_, h.output hrun⟩)
    fun _ _ _ hd hrun => bindOutput_error hrun ▸ hd
  normalizers := fun d ns ⟨_, h⟩ => ⟨_, h.noted ns d.anonymous⟩

theorem keeps_hasLog_registerTable (id : Option String) (axes : List String) (values : Array α) :
    Keeps HasLog (registerTable id axes values) := by
  refine keeps_of_run (fun _ _ _ ⟨_, h⟩ hrun => ⟨_, h.table hrun⟩) ?_
  rintro d e d' ⟨log, h⟩ hrun
  rcases registerTable_error hrun with rfl | rfl
  · exact ⟨log, h⟩
  · cases id with
    | none => exact ⟨log, h.noted d.normalizers d.nextAnonymous⟩
    | some id => exact ⟨log, h⟩

theorem keeps_hasLog_registerBreakpoints (id : String) (values : List α) :
    Keeps HasLog (registerBreakpoints id values) :=
  keeps_of_run (fun _ _ _ ⟨_, h⟩ hrun => ⟨_, h.breakpoints hrun⟩)
    fun _ _ _ hd hrun => registerBreakpoints_error hrun ▸ hd

/-- Every call is made of calls that bind one terminal or none. -/
theorem Reachable.hasLog (h : d.Reachable) : ∃ log, d.Logged log := by
  induction h with
  | empty name => exact ⟨_, .empty name⟩
  | call c _ ih =>
      exact c.keeps_of_stable stable_hasLog keeps_hasLog_registerBreakpoints
        keeps_hasLog_registerTable _ ih

end HasLog

end Draft

end BlockDiagram
