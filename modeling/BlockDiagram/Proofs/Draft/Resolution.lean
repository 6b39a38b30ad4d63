import BlockDiagram.Proofs.Draft.Faults
import BlockDiagram.Scalar.Double
/-! Resolution: which drafts can be wired, which signals their ports get then, and at which terminal wiring
fails otherwise, all told by what each terminal was bound to last. -/

namespace BlockDiagram

open Call

theorem Port.before_or_eq_or_after (p q : Port) : p.Before q ∨ p = q ∨ q.Before p := by
  cases p with
  | output =>
      cases q with
      | output => exact .inr (.inl rfl)
      | slot m => exact .inr (.inr trivial)
  | slot n =>
      cases q with
      | output => exact .inl trivial
      | slot m =>
          rcases Nat.lt_trichotomy n m with h | rfl | h
          · exact .inl h
          · exact .inr (.inl rfl)
          · exact .inr (.inr h)

theorem Terminal.before_or_eq_or_after (p q : Terminal) : p.Before q ∨ p = q ∨ q.Before p := by
  obtain ⟨⟨i⟩, p⟩ := p
  obtain ⟨⟨j⟩, q⟩ := q
  rcases Nat.lt_trichotomy i j with h | rfl | h
  · exact .inl (.inl h)
  · rcases p.before_or_eq_or_after q with h | rfl | h
    · exact .inl (.inr ⟨rfl, h⟩)
    · exact .inr (.inl rfl)
    · exact .inr (.inr (.inr ⟨rfl, h⟩))
  · exact .inr (.inr (.inl h))

namespace Draft

variable {α : Type} {d : Draft α} {bound : Terminal → Option Reference}

/-- A terminal is bound to a reference that stands for the signal. -/
def Carries (d : Draft α) (bound : Terminal → Option Reference) (terminal : Terminal)
    (id : SignalId) : Prop :=
  ∃ r, bound terminal = some r ∧ d.Denotes r id

/-- Every slot below a bound one is bound, every variable that is bound is declared, and no signal is
the output of two blocks. -/
structure Complete (d : Draft α) (bound : Terminal → Option Reference) : Prop where
  contiguous : ∀ (id : BlockId) (n m : Nat), n < m → (bound ⟨id, .slot m⟩).isSome →
    (bound ⟨id, .slot n⟩).isSome
  declared : ∀ terminal v, bound terminal = some (.variable v) → v ∈ d.varIds
  single : ∀ a b id, d.Carries bound ⟨a, .output⟩ id → d.Carries bound ⟨b, .output⟩ id → a = b

/-- The terminal cannot be wired, and the failure says why. -/
inductive Offends (d : Draft α) (bound : Terminal → Option Reference) :
    Terminal → ModelError α → Prop
  | unbound {id : BlockId} {b : DraftBlock α} {n m : Nat} : d.blocks[id.index]? = some b →
      bound ⟨id, .slot n⟩ = none → n < m → (bound ⟨id, .slot m⟩).isSome →
      Offends d bound ⟨id, .slot n⟩ (.unboundSlot b.name n)
  | undeclared {terminal : Terminal} {b : DraftBlock α} {v : String} :
      d.blocks[terminal.block.index]? = some b → bound terminal = some (.variable v) → v ∉ d.varIds →
      Offends d bound terminal (.unresolved b.name v)
  | taken {first second : BlockId} {b₁ b₂ : DraftBlock α} {id : SignalId} {s : Signal α} :
      first.index < second.index → d.blocks[first.index]? = some b₁ →
      d.blocks[second.index]? = some b₂ → d.Carries bound ⟨first, .output⟩ id →
      d.Carries bound ⟨second, .output⟩ id → d.signals[id.index]? = some s →
      Offends d bound ⟨second, .output⟩ (.duplicateSource s.varId b₁.name b₂.name)

/-- The model has the signals and the blocks of the draft, and in each port of a block the signal that
the port is bound to. -/
structure Connects (d : Draft α) (bound : Terminal → Option Reference) (m : Model α) : Prop where
  signals : ∀ id, (m.signal? id).map Signal.unwired = d.signals[id.index]?
  size : m.blocks.size = d.blocks.size
  blocks : ∀ id b, m.block? id = some b →
    ∃ b₀, d.blocks[id.index]? = some b₀ ∧ b.name = b₀.name ∧ b.kind = b₀.kind
  ports : ∀ id b, m.block? id = some b →
    ∀ (port : Port) (s : SignalId), port.signal? b = some s ↔ d.Carries bound ⟨id, port⟩ s

theorem held?_of_block {id : BlockId} {b : DraftBlock α} (hb : d.blocks[id.index]? = some b)
    (port : Port) : d.held? ⟨id, port⟩ = port.held? b := by
  rw [held?, hb]
  rfl

theorem held?_eq_some {terminal : Terminal} {r : Reference} :
    d.held? terminal = some r ↔
      ∃ b, d.blocks[terminal.block.index]? = some b ∧ terminal.port.held? b = some r :=
  Option.bind_eq_some_iff

theorem carries_held? {terminal : Terminal} {id : SignalId} :
    d.Carries d.held? terminal id ↔
      ∃ b, d.blocks[terminal.block.index]? = some b ∧ d.Ties b terminal.port id := by
  constructor
  · rintro ⟨r, hr, hid⟩
    obtain ⟨b, hb, hr⟩ := held?_eq_some.mp hr
    exact ⟨b, hb, r, hr, hid⟩
  · rintro ⟨b, hb, r, hr, hid⟩
    exact ⟨r, held?_eq_some.mpr ⟨b, hb, hr⟩, hid⟩

theorem Carries.unique (hd : d.Sound) {terminal : Terminal} {a b : SignalId} (ha : d.Carries bound terminal a)
    (hb : d.Carries bound terminal b) : a = b := by
  obtain ⟨r, hr, ha⟩ := ha
  obtain ⟨r', hr', hb⟩ := hb
  cases hr.symm.trans hr'
  exact ha.unique hd hb

theorem Carries.exists_signal (hd : d.Sound) {terminal : Terminal} {id : SignalId}
    (h : d.Carries d.held? terminal id) : ∃ s, d.signals[id.index]? = some s := by
  obtain ⟨b, hb, r, hr, hid⟩ := carries_held?.mp h
  refine ⟨_, Array.getElem?_eq_getElem (hid.inRange fun i hi => ?_)⟩
  subst hi
  obtain ⟨id, port⟩ := terminal
  cases port with
  | slot n =>
      exact hd.inputs _ b hb i (List.mem_of_getElem? (Option.join_eq_some_iff.mp hr))
  | output => exact hd.outputs _ b hb i hr

/-- Where what is bound is what the draft holds, the terminals that offend are those at fault. -/
theorem offends_iff (htight : ∀ (i : Nat) (b : DraftBlock α), d.blocks[i]? = some b → b.Tight)
    {terminal : Terminal} {e : ModelError α} : d.Offends d.held? terminal e ↔ d.FaultAt terminal e := by
  constructor
  · intro h
    cases h with
    | @unbound id b n m hb hopen hnm hm =>
        refine ⟨b, hb, .unbound ?_⟩
        obtain ⟨r, hr⟩ := Option.isSome_iff_exists.mp hm
        rw [held?_of_block hb, Port.held?] at hopen hr
        have hlt := (List.getElem?_eq_some_iff.mp (Option.join_eq_some_iff.mp hr)).1
        rw [List.getElem?_eq_getElem (Nat.lt_trans hnm hlt)] at hopen ⊢
        exact congrArg some hopen
    | undeclared hb hv hundeclared =>
        rw [held?_of_block hb] at hv
        exact ⟨_, hb, .undeclared hv hundeclared⟩
    | taken hlt hb₁ hb₂ hfirst hsecond hs =>
        obtain ⟨c₁, hc₁, hties₁⟩ := carries_held?.mp hfirst
        obtain ⟨c₂, hc₂, hties₂⟩ := carries_held?.mp hsecond
        cases hb₁.symm.trans hc₁
        cases hb₂.symm.trans hc₂
        rw [← Array.getElem?_toList, ← List.getElem?_take_of_lt hlt] at hb₁
        exact ⟨_, hb₂, .taken hb₁ hties₁ hties₂ hs⟩
  · rintro ⟨b, hb, hfault⟩
    obtain ⟨⟨i⟩, port⟩ := terminal
    cases hfault with
    | unbound hopen =>
        obtain ⟨m, r, hnm, hm⟩ := htight i b hb _ hopen
        refine .unbound hb ?_ hnm (Option.isSome_iff_exists.mpr ⟨r, ?_⟩)
        · rw [held?_of_block hb, Port.held?, hopen]
          rfl
        · rw [held?_of_block hb, Port.held?, hm]
          rfl
    | undeclared hv hundeclared =>
        exact .undeclared hb ((held?_of_block hb _).trans hv) hundeclared
    | @taken j b₁ id s hfirst hties₁ hties hs =>
        obtain ⟨hj, -⟩ := List.getElem?_eq_some_iff.mp hfirst
        rw [List.length_take] at hj
        have hlt : (⟨j⟩ : BlockId).index < i := Nat.lt_of_lt_of_le hj (Nat.min_le_left _ _)
        rw [List.getElem?_take_of_lt hlt, Array.getElem?_toList] at hfirst
        exact .taken hlt hfirst hb (carries_held?.mpr ⟨b₁, hfirst, hties₁⟩)
          (carries_held?.mpr ⟨b, hb, hties⟩) hs

/-- A draft is complete just if no terminal offends. -/
theorem complete_iff (hd : d.Sound) :
    d.Complete d.held? ↔ ∀ terminal e, ¬ d.Offends d.held? terminal e := by
  constructor
  · intro h terminal e hoffends
    cases hoffends with
    | unbound _ hopen hnm hm =>
        have hsome := h.contiguous _ _ _ hnm hm
        rw [hopen] at hsome
        cases hsome
    | undeclared _ hv hundeclared => exact hundeclared (h.declared _ _ hv)
    | taken hlt _ _ hfirst hsecond _ =>
        rw [h.single _ _ _ hfirst hsecond] at hlt
        exact Nat.lt_irrefl _ hlt
  · intro h
    constructor
    · intro id n m hnm hm
      obtain ⟨r, hr⟩ := Option.isSome_iff_exists.mp hm
      obtain ⟨b, hb, -⟩ := held?_eq_some.mp hr
      cases hopen : d.held? ⟨id, .slot n⟩ with
      | some r' => rfl
      | none => exact absurd (.unbound hb hopen hnm hm) (h _ _)
    · intro terminal v hv
      obtain ⟨b, hb, -⟩ := held?_eq_some.mp hv
      by_contra hundeclared
      exact h _ _ (.undeclared hb hv hundeclared)
    · intro a b id ha hb
      obtain ⟨s, hs⟩ := ha.exists_signal hd
      obtain ⟨b₁, hb₁, -⟩ := carries_held?.mp ha
      obtain ⟨b₂, hb₂, -⟩ := carries_held?.mp hb
      rcases Nat.lt_trichotomy a.index b.index with hlt | heq | hlt
      · exact absurd (.taken hlt hb₁ hb₂ ha hb hs) (h _ _)
      · exact Handle.eq_mk heq
      · exact absurd (.taken hlt hb₂ hb₁ hb ha hs) (h _ _)

/-- The first terminal that offends does so for one reason. -/
theorem Offends.unique (hd : d.Sound) {terminal : Terminal} {e e' : ModelError α}
    (h : d.Offends bound terminal e) (h' : d.Offends bound terminal e')
    (hfirst : ∀ q e, q.Before terminal → ¬ d.Offends bound q e) : e = e' := by
  cases h with
  | unbound hb hopen hnm hm =>
      cases h' with
      | unbound hb' _ _ _ =>
          cases hb.symm.trans hb'
          rfl
      | undeclared _ hv _ => cases hopen.symm.trans hv
  | undeclared hb hv hundeclared =>
      cases h' with
      | unbound _ hopen _ _ => cases hopen.symm.trans hv
      | undeclared hb' hv' _ =>
          cases hb.symm.trans hb'
          cases hv.symm.trans hv'
          rfl
      | taken _ _ _ _ hsecond _ =>
          obtain ⟨r, hr, hid⟩ := hsecond
          cases hr.symm.trans hv
          exact absurd hid.declared hundeclared
  | @taken first second b₁ b₂ id s hlt hb₁ hb₂ hcarries₁ hcarries hs =>
      cases h' with
      | undeclared _ hv hundeclared =>
          obtain ⟨r, hr, hid⟩ := hcarries
          cases hr.symm.trans hv
          exact absurd hid.declared hundeclared
      | @taken first' _ b₁' _ id' s' hlt' hb₁' hb₂' hcarries₁' hcarries' hs' =>
          cases hcarries.unique hd hcarries'
          cases hs.symm.trans hs'
          cases hb₂.symm.trans hb₂'
          -- Of two earlier producers the later one would offend already.
          rcases Nat.lt_trichotomy first.index first'.index with hbefore | heq | hbefore
          · exact absurd (.taken hbefore hb₁ hb₁' hcarries₁ hcarries₁' hs) (hfirst _ _ (.inl hlt'))
          · rw [heq] at hb₁
            cases hb₁.symm.trans hb₁'
            rfl
          · exact absurd (.taken hbefore hb₁' hb₁ hcarries₁' hcarries₁ hs) (hfirst _ _ (.inl hlt))

variable [Scalar α]

theorem Wired.connects (hd : d.Sound) {m : Model α} (hw : d.Wired d.blocks.toList m) :
    d.Connects d.held? m := by
  have hblock : ∀ id b, m.block? id = some b →
      ∃ b₀, d.blocks[id.index]? = some b₀ ∧ d.Resolved b₀ b := by
    intro id b hb
    obtain ⟨b₀, hb₀, hres⟩ := hw.block? hb
    rw [Array.getElem?_toList] at hb₀
    exact ⟨b₀, hb₀, hres⟩
  constructor
  · intro id
    cases hs : m.signal? id with
    | some s => exact (hw.signal? hs).symm
    | none =>
        have hsize := Array.getElem?_eq_none_iff.mp hs
        rw [hw.signalCount] at hsize
        exact (Array.getElem?_eq_none hsize).symm
  · rw [hw.size, Array.length_toList]
  · intro id b hb
    obtain ⟨b₀, hb₀, hres⟩ := hblock id b hb
    exact ⟨b₀, hb₀, hres.name, hres.kind⟩
  · intro id b hb port s
    obtain ⟨b₀, hb₀, hres⟩ := hblock id b hb
    rw [hres.signal?_eq_some hd, carries_held?]
    constructor
    · exact fun hties => ⟨b₀, hb₀, hties⟩
    · rintro ⟨c, hc, hties⟩
      cases hb₀.symm.trans hc
      exact hties

/-- Wiring a draft that calls have led to, by what the calls have bound each terminal to last: it succeeds
just if the draft is complete, it connects every port with what the port is bound to, and it fails with
an error just if that is the error of the first terminal that offends. -/
theorem Reachable.wiring_resolves_last_bindings (hd : d.Reachable) :
    (∃ log, d.Logged log) ∧ ∀ log, d.Logged log →
      ((∃ m, d.wire = .ok m) ↔ d.Complete (Binding.last? log)) ∧
      (∀ m, d.wire = .ok m → d.Connects (Binding.last? log) m) ∧
      ∀ e, d.wire = .error e ↔ ∃ terminal, d.Offends (Binding.last? log) terminal e ∧
        ∀ q e', q.Before terminal → ¬ d.Offends (Binding.last? log) q e' := by
  refine ⟨hd.hasLog, fun log hlog => ?_⟩
  have hbound := hlog.bound
  have hsound := hd.sound
  rw [← funext hbound.held, complete_iff hsound]
  have hoffends : ∀ terminal e, d.Offends d.held? terminal e ↔ d.FaultAt terminal e :=
    fun _ _ => offends_iff hbound.tight
  rcases wire_cases hsound with ⟨m, hm, hnone⟩ | ⟨terminal, e, hfail, hfirst⟩
  · rw [hm]
    refine ⟨⟨fun _ terminal e h => hnone terminal e ((hoffends _ _).mp h), fun _ => ⟨m, rfl⟩⟩, ?_, ?_⟩
    · rintro _ ⟨⟩
      exact (wire_ok hsound hm).connects hsound
    · refine fun e => ⟨nofun, ?_⟩
      rintro ⟨terminal, h, -⟩
      exact absurd ((hoffends _ _).mp h) (hnone terminal e)
  · have hat := (hoffends terminal e).mpr hfirst.fault
    have hbefore : ∀ q e', q.Before terminal → ¬ d.Offends d.held? q e' :=
      fun q e' hq h => hfirst.first q e' hq ((hoffends _ _).mp h)
    rw [hfail]
    refine ⟨⟨nofun, fun h => absurd hat (h terminal e)⟩, nofun, fun e' => ⟨?_, ?_⟩⟩
    · rintro ⟨⟩
      exact ⟨terminal, hat, hbefore⟩
    · rintro ⟨terminal', hat', hbefore'⟩
      rcases terminal.before_or_eq_or_after terminal' with hlt | rfl | hlt
      · exact absurd hat (hbefore' terminal e hlt)
      · rw [hat.unique hsound hat' hbefore]
      · exact absurd hat' (hbefore terminal' e' hlt)

/-- A sum whose second slot is bound before the first, and to a variable that is declared last. -/
def rewired (first : List Reference) : Draft Float :=
  .after "rewired" ([ .signal (.declare "u" "u" ""), .block "sum" .sum,
      .input ⟨0⟩ 1 (.variable "y") ] ++ first.map (.input ⟨0⟩ 0) ++
    [ .output ⟨0⟩ (.variable "y"), .signal (.declare "y" "y" "") ])

/-- The first slot may be bound to an undeclared variable as long as it is bound again, and it has to be
bound. -/
theorem rewired_resolves_last_bindings :
    (∃ log m, (rewired [.variable "x", .signal ⟨0⟩]).Logged log ∧
      (rewired [.variable "x", .signal ⟨0⟩]).wire = .ok m ∧
      (rewired [.variable "x", .signal ⟨0⟩]).Complete (Binding.last? log)) ∧
    ∃ log terminal e, (rewired []).Logged log ∧ (rewired []).wire = .error e ∧
      (rewired []).Offends (Binding.last? log) terminal e := by
  constructor
  · have hreachable : (rewired [.variable "x", .signal ⟨0⟩]).Reachable := reachable_after _ _
    obtain ⟨⟨log, hlog⟩, hall⟩ := Reachable.wiring_resolves_last_bindings hreachable
    have hwires : (rewired [.variable "x", .signal ⟨0⟩]).wire.toOption.any
        (fun m => m.blocks.size == 1) = true := by decide +kernel
    obtain ⟨m, hm, -⟩ := outcome_of_any hwires
    exact ⟨log, m, hlog, hm, (hall log hlog).1.mp ⟨m, hm⟩⟩
  · have hreachable : (rewired []).Reachable := reachable_after _ _
    obtain ⟨⟨log, hlog⟩, hall⟩ := Reachable.wiring_resolves_last_bindings hreachable
    have hfails : (rewired []).wire.toOption.isNone = true := by decide +kernel
    cases hwire : (rewired []).wire with
    | ok m =>
        rw [hwire] at hfails
        cases hfails
    | error e =>
        obtain ⟨-, -, herror⟩ := hall log hlog
        obtain ⟨terminal, hoffends, -⟩ := (herror e).mp hwire
        exact ⟨log, terminal, e, hlog, rfl, hoffends⟩

end Draft

end BlockDiagram
