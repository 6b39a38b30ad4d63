import BlockDiagram.Proofs.Draft.Realization
import BlockDiagram.Proofs.Model.Operation
/-! Solutions: what an evaluated model tells about the variables of the draft it was built from, each
before and behind its limits. -/

namespace BlockDiagram

open Call

variable {α : Type}

namespace Model

variable {m : Model α}

theorem valueOf?_of_distinct (h : m.Distinct) {id : SignalId} {s : Signal α}
    (hs : m.signal? id = some s) : m.valueOf? s.varId = m.valueOn? id := by
  simp only [valueOf?, signalNamed?_of_distinct h hs, valueOn?, producer?, hs, Option.bind_eq_bind,
    Option.bind_some]
  cases s.source with
  | none => rfl
  | some e =>
      change (do return (← m.block? e.block).value) = (m.block? e.block).map Block.value
      cases m.block? e.block with
      | none => rfl
      | some b => rfl

theorem EdgesAgree.source_of_output (h : m.EdgesAgree) {p : BlockId} {b : Block α} {id : SignalId}
    (hb : m.block? p = some b) (hout : b.output = some id) :
    ∃ s, m.signal? id = some s ∧ s.source = some ⟨p, 0⟩ := by
  obtain ⟨s, hs⟩ := exists_signal (h.outputs p b hb id hout)
  exact ⟨s, hs, (h.source id s hs ⟨p, 0⟩).mpr ⟨rfl, b, hb, hout⟩⟩

theorem EdgesAgree.producer?_of_output (h : m.EdgesAgree) {p : BlockId} {b : Block α} {id : SignalId}
    (hb : m.block? p = some b) (hout : b.output = some id) : m.producer? id = some p := by
  obtain ⟨s, hs, hsource⟩ := h.source_of_output hb hout
  exact producer?_eq_some.mpr ⟨s, _, hs, hsource, rfl⟩

theorem EdgesAgree.valueOn?_of_output (h : m.EdgesAgree) {p : BlockId} {b : Block α} {id : SignalId}
    (hb : m.block? p = some b) (hout : b.output = some id) : m.valueOn? id = some b.value := by
  rw [valueOn?, h.producer?_of_output hb hout, Option.bind_some, hb]
  rfl

theorem producer?_of_valueOn? {id : SignalId} {x : α} (h : m.valueOn? id = some x) :
    ∃ p, m.producer? id = some p := by
  obtain ⟨p, hp, -⟩ := Option.bind_eq_some_iff.mp h
  exact ⟨p, hp⟩

theorem mem_inputs (h : m.Enrolled) {p : BlockId} {b : Block α} (hb : m.block? p = some b) :
    p ∈ m.inputs ↔ b.kind.isInput = true := by
  rw [h.inputs, List.mem_filter, kindOf?, hb]
  exact and_iff_right (Handle.mem_all.mpr (block?_lt hb))

end Model

namespace Draft

variable [Scalar α]

/-- What the blocks of a draft make of its variables: `raw` before limits act and `seen` behind them,
where `held` is what inputs hold. A block can be computed once all of smaller rank have been. -/
structure Solved (d : Draft α) (held raw seen : String → Option α) (rank : String → Nat) : Prop where
  computed : ∀ k ws v, d.Produces k ws v → k.isInput = false →
    (∀ w ∈ ws, rank w < rank v) ∧ ∃ xs x, List.Forall₂ (fun w y => seen w = some y) ws xs ∧
      raw v = some x ∧ ∀ y, k.evaluate d.breakpoints d.tables y xs = .ok x
  valued : ∀ (i : Nat) (s : Signal α), d.signals[i]? = some s → ∃ x, raw s.varId = some x
  free : ∀ (i : Nat) (s : Signal α), d.signals[i]? = some s → s.needsLimiter = false →
    seen s.varId = raw s.varId
  limited : ∀ (i : Nat) (s : Signal α) (x : α), d.signals[i]? = some s → s.needsLimiter = true →
    raw s.varId = some x → ∃ z, seen s.varId = some z ∧
      ∀ y, (BlockKind.limiterBetween s.lower s.upper).evaluate d.breakpoints d.tables y [x] = .ok z
  fed : ∀ (i : Nat) (s : Signal α), d.signals[i]? = some s → ¬ d.Produced s.varId →
    raw s.varId = match s.initial with
      | some x => if s.roles.isExternal then held s.varId else some x
      | none => held s.varId

namespace Realized

variable {d : Draft α} {m f : Model α} {holder : SignalId → SignalId}

theorem seen_eq (h : d.Realized f holder) {id : SignalId} {s : Signal α}
    (hs : d.signals[id.index]? = some s) : f.valueOf? s.varId = f.valueOn? (holder id) := by
  obtain ⟨t, ht, hname⟩ := h.named id s hs
  rw [← hname]
  exact Model.valueOf?_of_distinct h.distinct ht

theorem isInput_limiterBetween (lower upper : α) :
    (BlockKind.limiterBetween lower upper).isInput = false := by
  unfold BlockKind.limiterBetween
  split <;> rfl

theorem isLimiter_limiterBetween (lower upper : α) :
    (BlockKind.limiterBetween lower upper).isLimiter = true := by
  unfold BlockKind.limiterBetween
  split <;> rfl

/-- What drives a variable that has no producer in the draft is the input block that feeds it. -/
theorem driver?_eq (h : d.Realized f holder) (hedges : f.EdgesAgree) (henrolled : f.Enrolled)
    {id : SignalId} {s : Signal α} (hs : d.signals[id.index]? = some s) {p : BlockId} {c : Block α}
    (hc : f.block? p = some c) (hout : c.output = some id) (hinput : c.kind.isInput = true) :
    f.driver? s.varId = some p := by
  have hp := (Model.mem_inputs henrolled hc).mpr hinput
  obtain ⟨t, ht, hname⟩ := h.named id s hs
  obtain ⟨u, hu, hsource⟩ := hedges.source_of_output hc hout
  rw [← hname, Model.driver?_eq_some]
  cases hneed : s.needsLimiter with
  | false =>
      rw [h.free id s hs hneed] at ht
      cases hu.symm.trans ht
      exact ⟨_, _, Model.signalNamed?_of_distinct h.distinct hu, hsource, .inl ⟨hp, rfl⟩⟩
  | true =>
      obtain ⟨q, b, hb, hkind, hslots, houtput⟩ := h.limited id s hs hneed
      obtain ⟨t', ht', hsource'⟩ := hedges.source_of_output hb houtput
      cases ht.symm.trans ht'
      refine ⟨_, _, Model.signalNamed?_of_distinct h.distinct ht, hsource', .inr ⟨?_, ?_⟩⟩
      · rw [Model.mem_inputs henrolled hb, hkind, isInput_limiterBetween]
        exact Bool.false_ne_true
      · refine Model.limitedInput?_eq_some.mpr ⟨_, b, id, u, _, hsource', hb, ?_, ?_, hu, hsource,
          rfl, hp⟩
        · rw [hkind, isLimiter_limiterBetween]
        · rw [hslots]
          rfl

/-- The position of what produces the limited value of a variable in a list of blocks. -/
def rank (d : Draft α) (f : Model α) (holder : SignalId → SignalId) (l : List BlockId) (v : String) :
    Nat :=
  ((d.signalId? v).bind fun id => f.producer? (holder id)).elim 0 l.idxOf

omit [Scalar α] in
theorem rank_eq {l : List BlockId} {v : String} {id : SignalId} {p : BlockId}
    (hv : d.signalId? v = some id) (hp : f.producer? (holder id) = some p) :
    rank d f holder l v = l.idxOf p := by
  rw [rank, hv, Option.bind_some, hp]
  rfl

/-- The limiter of a signal: what it reads and what it makes of that. -/
theorem limiter (h : d.Realized f holder) (hsettled : Model.Settled m f) {id : SignalId} {s : Signal α}
    (hs : d.signals[id.index]? = some s) (hneed : s.needsLimiter = true) :
    ∃ q b x, f.block? q = some b ∧ b.inputs = [id] ∧ b.output = some (holder id) ∧
      f.valueOn? id = some x ∧ ∀ y, (BlockKind.limiterBetween s.lower s.upper).evaluate
        d.breakpoints d.tables y [x] = .ok b.value := by
  obtain ⟨q, b, hb, hkind, hslots, hout⟩ := h.limited id s hs hneed
  obtain ⟨xs, hxs, heval⟩ := hsettled.solved q b hb (hkind ▸ isInput_limiterBetween _ _)
  rw [hslots] at hxs
  obtain ⟨x, ys, hx, hys, rfl⟩ := List.forall₂_cons_left_iff.mp hxs
  cases hys
  rw [hkind, h.grids.1, h.grids.2] at heval
  exact ⟨q, b, x, hb, hslots, hout, hx, heval⟩

/-- A variable is ranked by its limiter if it has one, which stands behind its producer. -/
theorem idxOf_le_rank (h : d.Realized f holder) (hf : f.Sound) (hsettled : Model.Settled m f)
    {l : List BlockId} (hl : f.IsOrder l) {id : SignalId} {s : Signal α}
    (hs : d.signals[id.index]? = some s) (hv : d.signalId? s.varId = some id) {p : BlockId}
    (hp : f.producer? id = some p) : l.idxOf p ≤ rank d f holder l s.varId := by
  cases hneed : s.needsLimiter with
  | false => exact Nat.le_of_eq (rank_eq hv (by rw [h.free id s hs hneed]; exact hp)).symm
  | true =>
      obtain ⟨q, b, x, hb, hread, hholder, -⟩ := h.limiter hsettled hs hneed
      rw [rank_eq hv (hf.edges.producer?_of_output hb hholder)]
      exact Nat.le_of_lt (hl.idxOf_lt ⟨b, id, hb, by rw [hread]; exact List.mem_singleton_self id, hp⟩)

theorem computed (h : d.Realized f holder) (hd : d.Sound) (hf : f.Sound) (hsettled : Model.Settled m f)
    {l : List BlockId} (hl : f.IsOrder l) {k : BlockKind α} {ws : List String} {v : String}
    (hproduces : d.Produces k ws v) (hinput : k.isInput = false) :
    (∀ w ∈ ws, rank d f holder l w < rank d f holder l v) ∧ ∃ xs x,
      List.Forall₂ (fun w y => f.valueOf? w = some y) ws xs ∧
      (d.signalId? v).bind f.valueOn? = some x ∧
      ∀ y, k.evaluate d.breakpoints d.tables y xs = .ok x := by
  obtain ⟨p, c, id, ids, hc, rfl, hslots, hout, hv, hids⟩ := h.blocks k ws v hproduces
  obtain ⟨xs, hxs, heval⟩ := hsettled.solved p c hc hinput
  rw [hslots, List.forall₂_map_left_iff] at hxs
  rw [h.grids.1, h.grids.2] at heval
  obtain ⟨s, hs, rfl⟩ := (signalId?_eq_some hd).mp hv
  refine ⟨?_, xs, c.value, ?_, ?_, heval⟩
  · intro w hw
    obtain ⟨i, hi, hwi⟩ := forall₂_exists hids w hw
    obtain ⟨x, -, hx⟩ := forall₂_exists hxs i hi
    obtain ⟨q, hq⟩ := Model.producer?_of_valueOn? hx
    have hreads : f.Reads p q := ⟨c, holder i, hc, by rw [hslots]; exact List.mem_map_of_mem hi, hq⟩
    rw [rank_eq hwi hq]
    exact Nat.lt_of_lt_of_le (hl.idxOf_lt hreads)
      (h.idxOf_le_rank hf hsettled hl hs hv (hf.edges.producer?_of_output hc hout))
  · refine forall₂_comp hids hxs fun w i x hi hx => ?_
    obtain ⟨t, ht, rfl⟩ := (signalId?_eq_some hd).mp hi
    exact (h.seen_eq ht).trans hx
  · rw [hv, Option.bind_some]
    exact hf.edges.valueOn?_of_output hc hout

theorem valued (h : d.Realized f holder) (hf : f.Sound) (hsettled : Model.Settled m f) {id : SignalId}
    {s : Signal α} (hs : d.signals[id.index]? = some s) : ∃ x, f.valueOn? id = some x := by
  cases hneed : s.needsLimiter with
  | false =>
      obtain ⟨t, ht, -⟩ := h.named id s hs
      rw [h.free id s hs hneed] at ht
      obtain ⟨e, he⟩ := h.sourced id t ht
      obtain ⟨-, b, hb, hout⟩ := (hf.edges.source id t ht e).mp he
      exact ⟨b.value, hf.edges.valueOn?_of_output hb hout⟩
  | true =>
      obtain ⟨q, b, x, -, -, -, hx, -⟩ := h.limiter hsettled hs hneed
      exact ⟨x, hx⟩

/-- A variable without producer in the draft carries its initial value, or what an input block holds. -/
theorem fed_value (h : d.Realized f holder) (hf : f.Sound) (hsettled : Model.Settled m f) {id : SignalId}
    {s : Signal α} (hs : d.signals[id.index]? = some s) (hopen : ¬ d.Produced s.varId) :
    f.valueOn? id = match s.initial with
      | some x => if s.roles.isExternal then f.held? s.varId else some x
      | none => f.held? s.varId := by
  obtain ⟨p, c, hc, hkind, hout⟩ := h.fed id s hs hopen
  rw [hf.edges.valueOn?_of_output hc hout]
  have hconstant : ∀ x, c.kind = .constant x → some c.value = some x := by
    intro x hx
    obtain ⟨xs, -, heval⟩ := hsettled.solved p c hc (by rw [hx]; rfl)
    rw [hx] at heval
    rw [← Except.ok.inj (heval x)]
  have hheld : c.kind = .input → some c.value = f.held? s.varId := by
    intro hinput
    rw [Model.held?, h.driver?_eq hf.edges hf.enrolled hs hc hout (by rw [hinput]; rfl),
      Option.bind_some, hc, Option.map_some]
  unfold Signal.feeder at hkind
  cases hinitial : s.initial with
  | none =>
      rw [hinitial] at hkind
      exact hheld hkind
  | some x =>
      rw [hinitial] at hkind
      dsimp only at hkind ⊢
      split
      · rename_i hexternal
        rw [if_pos hexternal] at hkind
        exact hheld hkind
      · rename_i hinternal
        rw [if_neg hinternal] at hkind
        exact hconstant x hkind

theorem solved (hd : d.Sound) (h : d.Realized f holder) (hf : f.Sound) (hsettled : Model.Settled m f)
    {l : List BlockId} (hl : f.IsOrder l) :
    d.Solved f.held? (fun v => (d.signalId? v).bind f.valueOn?) f.valueOf? (rank d f holder l) := by
  have hname : ∀ (i : Nat) s, d.signals[i]? = some s → d.signalId? s.varId = some ⟨i⟩ :=
    fun i s hs => (signalId?_eq_some hd).mpr ⟨s, hs, rfl⟩
  have hat : ∀ (i : Nat) s, d.signals[i]? = some s → d.signals[(⟨i⟩ : SignalId).index]? = some s :=
    fun _ _ hs => hs
  constructor
  · exact fun k ws v hproduces hinput => h.computed hd hf hsettled hl hproduces hinput
  · intro i s hs
    rw [hname i s hs, Option.bind_some]
    exact h.valued hf hsettled (hat i s hs)
  · intro i s hs hfree
    rw [h.seen_eq (hat i s hs), hname i s hs, Option.bind_some, h.free ⟨i⟩ s hs hfree]
  · intro i s x hs hneed hx
    rw [hname i s hs, Option.bind_some] at hx
    obtain ⟨q, b, x', hb, -, hout, hx', heval⟩ := h.limiter hsettled (hat i s hs) hneed
    cases hx.symm.trans hx'
    exact ⟨b.value, (h.seen_eq (hat i s hs)).trans (hf.edges.valueOn?_of_output hb hout), heval⟩
  · intro i s hs hopen
    rw [hname i s hs, Option.bind_some]
    exact h.fed_value hf hsettled (hat i s hs) hopen

end Realized

theorem solved_of_computes {d : Draft α} (hd : d.Sound) {m₀ m m' : Model α} (hbuild : d.build = .ok m₀)
    (hm : m.Sound) (hbare : m.bare = m₀.bare) (hrun : m.Computes m') :
    ∃ raw rank, d.Solved m'.held? raw m'.valueOf? rank := by
  obtain ⟨holder, hrealized⟩ := realized_of_built hd hbuild ((hrun.bare_eq hm).trans hbare)
  obtain ⟨l, hl⟩ := hrun.ordered hm
  exact ⟨_, _, hrealized.solved hd (hrun.sound hm) (hrun.settled hm) hl⟩

end Draft

end BlockDiagram
