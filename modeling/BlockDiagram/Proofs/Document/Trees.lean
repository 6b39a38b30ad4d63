import BlockDiagram.Proofs.Document.Interface
/-! Trees: the blocks of formulas in a model that is complete. They stand where lowering has put them, and
read, slot by slot, the signals that carry the arguments. -/

namespace BlockDiagram

variable {α : Type}

namespace Model

/-- The signal has the ID of the variable. -/
def Holds (m : Model α) (id : SignalId) (v : String) : Prop := ∃ s, m.signal? id = some s ∧ s.varId = v

/-- The block in position `i` computes the signal `id` from `ids`, in this order. -/
def Puts (m : Model α) (k : BlockKind α) (ids : List SignalId) (id : SignalId) (i : Nat) : Prop :=
  ∃ b, m.block? ⟨i⟩ = some b ∧ b.kind = k ∧ b.inputs = ids ∧ b.output = some id

/-- The blocks in the positions from `i` up to `j` are those of the formulas, and the signals carry what the
formulas compute. A reference has no block: the signal is the one of the variable. -/
inductive Lays (m : Model α) : List (Formula α) → List SignalId → Nat → Nat → Prop
  | nil (i : Nat) : Lays m [] [] i i
  | reference {f : Formula α} {fs : List (Formula α)} {w : String} {id : SignalId}
      {ids : List SignalId} {i j : Nat} : f = .name w ∨ f = .var w → m.Holds id w →
      Lays m fs ids i j → Lays m (f :: fs) (id :: ids) i j
  | literal {f : Formula α} {fs : List (Formula α)} {x : α} {id : SignalId} {ids : List SignalId}
      {i j : Nat} : f = .number x ∨ f = .const x → m.Puts (.constant x) [] id i →
      Lays m fs ids (i + 1) j → Lays m (f :: fs) (id :: ids) i j
  | apply {op : Operator} {args fs : List (Formula α)} {us : List SignalId} {id : SignalId}
      {ids : List SignalId} {i k j : Nat} : m.Puts op.kind us id i → Lays m args us (i + 1) k →
      Lays m fs ids k j → Lays m (.apply op args :: fs) (id :: ids) i j

variable [Scalar α]

/-- The signal is the one that the variable is computed on: that of the variable itself, or the one in front
of its limiter. -/
def Defines (m : Model α) (v : Document.Variable α) (id : SignalId) : Prop :=
  if v.isBounded then ∃ held p, m.Puts (.limiterBetween v.signal.lower v.signal.upper) [id] held p ∧
    m.Holds held v.varId
  else m.Holds id v.varId

/-- The blocks in the positions from `i` up to `j` are those of the formulas of the variables: for each, the
block that the variable is computed by, then those of the arguments of this block. -/
inductive Spreads (m : Model α) : List (Document.Variable α) → Nat → Nat → Prop
  | nil (i : Nat) : Spreads m [] i i
  | free {v : Document.Variable α} {vars : List (Document.Variable α)} {i j : Nat} :
      v.calculation = none → Spreads m vars i j → Spreads m (v :: vars) i j
  | formula {v : Document.Variable α} {vars : List (Document.Variable α)} {f : Formula α}
      {ids : List SignalId} {id : SignalId} {i k j : Nat} : v.calculation = some f → m.Defines v id →
      m.Puts f.head.1 ids id i → m.Lays f.head.2 ids (i + 1) k → Spreads m vars k j →
      Spreads m (v :: vars) i j

end Model

namespace Draft

variable [Scalar α] {d : Draft α} {w m : Model α} {holder : SignalId → SignalId}

section Wired

variable (hd : d.Sound) (hw : d.Wired d.blocks.toList w) (hm : w.Completed m holder)
include hd hw hm

theorem Wired.holder_holds {v : String} {id : SignalId} (hid : d.signalId? v = some id) :
    m.Holds (holder id) v := by
  obtain ⟨s, hs, rfl⟩ := (signalId?_eq_some hd).mp hid
  obtain ⟨t, ht, rfl⟩ := hw.exists_signal hs
  exact hm.named id t ht

/-- The place of a block in the draft is its place in the complete model. -/
theorem Puts.completed {k : BlockKind α} {ws : List String} {v : String} {i : Nat}
    (h : d.Puts k ws v i) :
    ∃ ids id, List.Forall₂ (fun w id => d.signalId? w = some id) ws ids ∧ d.signalId? v = some id ∧
      m.Puts k (ids.map holder) id i := by
  obtain ⟨c, id, ids, hc, hkind, hinputs, houtput, hid, hids⟩ := hw.completed_puts hd hm h
  exact ⟨ids, id, hids, hid, c, hc, hkind, hinputs, houtput⟩

variable [Unbounded α]

/-- Arguments are carried by the same signals as in the draft, but for variables with a limiter, which are
read behind it. -/
theorem Lays.completed {fs : List (Formula α)} {vs : List String} {i j : Nat} (h : d.Lays fs vs i j)
    {ids : List SignalId} (hids : List.Forall₂ (fun v id => d.signalId? v = some id) vs ids) :
    m.Lays fs (ids.map holder) i j := by
  induction h generalizing ids with
  | nil i =>
      cases hids
      exact .nil i
  | reference hf hrest ih =>
      cases hids with
      | cons hid hmore => exact .reference hf (hw.holder_holds hd hm hid) (ih hmore)
  | literal hf hv hputs hrest ih =>
      cases hids with
      | cons hid hmore =>
          obtain ⟨us, id', hus, hid', hputs⟩ := hputs.completed hd hw hm
          cases hus
          cases hid.symm.trans hid'
          rw [List.map_cons, hw.holder_of_derived hd hm hv hid]
          exact .literal hf hputs (ih hmore)
  | apply hv hputs hargs hrest ihargs ih =>
      cases hids with
      | cons hid hmore =>
          obtain ⟨us, id', hus, hid', hputs⟩ := hputs.completed hd hw hm
          cases hid.symm.trans hid'
          rw [List.map_cons, hw.holder_of_derived hd hm hv hid]
          exact .apply hputs (ihargs hus) (ih hmore)

theorem Wired.defines {v : Document.Variable α} {id : SignalId}
    (hs : d.signals[id.index]? = some v.signal) : m.Defines v id := by
  obtain ⟨t, ht, hsame⟩ := hw.exists_signal hs
  have hid : d.signalId? v.varId = some id := (signalId?_eq_some hd).mpr ⟨_, hs, rfl⟩
  have hneed : t.needsLimiter = v.isBounded := by
    rw [← t.needsLimiter_unwired, hsame, v.needsLimiter_signal]
    rfl
  have hholds := hw.holder_holds hd hm hid
  unfold Model.Defines
  split
  · rename_i hbounded
    obtain ⟨p, c, hc, hkind, hinputs, houtput⟩ := hm.limited id t ht (hneed.trans hbounded)
    have hlower : t.lower = v.signal.lower := (congrArg Signal.lower hsame :)
    have hupper : t.upper = v.signal.upper := (congrArg Signal.upper hsame :)
    rw [hlower, hupper] at hkind
    exact ⟨holder id, p.index, ⟨c, hc, hkind, hinputs, houtput⟩, hholds⟩
  · rename_i hfree
    rwa [hm.free id t ht (hneed.trans (Bool.not_eq_true _ ▸ hfree))] at hholds

end Wired

end Draft

/-- The blocks of formulas stand in the complete model where they stand in the draft. -/
theorem Document.Spreads.completed [Scalar α] [Unbounded α] {d : Draft α} {w m : Model α}
    {holder : SignalId → SignalId} (hd : d.Sound) (hw : d.Wired d.blocks.toList w)
    (hm : w.Completed m holder) {vars : List (Variable α)} {i j : Nat} (h : Spreads d vars i j)
    (hsignals : ∀ v ∈ vars, HasSignal v d) : m.Spreads vars i j := by
  induction h with
  | nil i => exact .nil i
  | free hnone hrest ih => exact .free hnone (ih fun v hv => hsignals v (List.mem_cons_of_mem _ hv))
  | @formula v vars f ws i k j hf hputs hlays hrest ih =>
      obtain ⟨n, hs⟩ := hsignals v List.mem_cons_self
      obtain ⟨ids, id, hids, hid, hputs⟩ := hputs.completed hd hw hm
      have hplace : d.signalId? v.varId = some ⟨n⟩ := (Draft.signalId?_eq_some hd).mpr ⟨_, hs, rfl⟩
      cases hid.symm.trans hplace
      exact .formula hf (hw.defines hd hm hs) hputs (hlays.completed hd hw hm hids)
        (ih fun v hv => hsignals v (List.mem_cons_of_mem _ hv))

end BlockDiagram
