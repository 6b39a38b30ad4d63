import BlockDiagram.Proofs.Model.Operation
import BlockDiagram.Proofs.Model.Scheduling
/-! Runnable models: every input count fits, what is read is produced, and no block waits for itself. All
evaluations of such a model succeed, and completion keeps it such a model, for what it puts in lies on no
loop. -/

namespace BlockDiagram

open Call

variable {α : Type}

/-- A block of the kinds that completion puts in: its input count fits over any tables, and it looks
nothing up. -/
def Block.Auxiliary (b : Block α) : Prop :=
  b.kind.isLookup = false ∧ ∀ tables, (b.kind.arity tables).accepts b.inputs.length = true

namespace Signal

variable [Scalar α]

theorem limiter_auxiliary (s : Signal α) (id limited : SignalId) : (s.limiter id limited).Auxiliary := by
  unfold limiter BlockKind.limiterBetween
  split <;> exact ⟨rfl, fun _ => rfl⟩

theorem feeder_auxiliary (s : Signal α) (id : SignalId) : (s.feeder id).Auxiliary := by
  unfold feeder
  split
  · split <;> exact ⟨rfl, fun _ => rfl⟩
  · exact ⟨rfl, fun _ => rfl⟩

end Signal

namespace Model

variable {m m' m₀ : Model α} {id : SignalId} {s : Signal α}

/-- The blocks can be ranked so that each one has a higher rank than the blocks it reads. -/
def Ranked (m : Model α) : Prop := ∃ rank : BlockId → Nat, ∀ b p, m.Reads b p → rank p < rank b

theorem IsOrder.ranked {l : List BlockId} (h : m.IsOrder l) : m.Ranked :=
  ⟨fun id => l.idxOf id, fun _ _ hr => h.idxOf_lt hr⟩

theorem Ranked.no_loop (h : m.Ranked) : ¬ ∃ c, Relation.TransGen m.Reads c c := by
  obtain ⟨rank, hrank⟩ := h
  rintro ⟨c, hcycle⟩
  have hless : ∀ p, Relation.TransGen m.Reads c p → rank p < rank c := by
    intro p hp
    induction hp with
    | single hr => exact hrank _ _ hr
    | tail _ hr ih => exact (hrank _ _ hr).trans ih
  exact Nat.lt_irrefl _ (hless c hcycle)

section Attach

variable {b : Block α}

theorem attach_producer? {j : SignalId} (hj : j.index < m.signals.size) :
    (m.attach b).producer? j =
      if b.output = some j then some ⟨m.blocks.size⟩ else m.producer? j := by
  obtain ⟨x, hx⟩ := exists_signal hj
  rw [producer?, producer?, attach_signal?, hx, Option.map_some, Option.bind_some, Option.bind_some,
    Signal.joined]
  split
  · rfl
  · rfl

/-- What a block reads once another one is attached: what it read before, or the new block. -/
theorem attach_reads {i p : BlockId} (h : (m.attach b).Reads i p) (hm : m.EdgesAgree) :
    (i.index = m.blocks.size ∧ ∃ x ∈ b.inputs, (m.attach b).producer? x = some p) ∨
      i.index < m.blocks.size ∧ (p = ⟨m.blocks.size⟩ ∧ b.output ≠ none ∨ m.Reads i p) := by
  obtain ⟨c, x, hc, hx, hp⟩ := h
  rw [attach_block?] at hc
  split at hc
  · cases hc
    exact .inl ⟨‹_›, x, hx, hp⟩
  · refine .inr ⟨block?_lt hc, ?_⟩
    rw [attach_producer? (hm.inputs i c hc x hx)] at hp
    split at hp
    · cases hp
      refine .inl ⟨rfl, ?_⟩
      rw [‹b.output = some x›]
      exact Option.some_ne_none x
    · exact .inr ⟨c, x, hc, hx, hp⟩

theorem EdgesAgree.producer?_lt (h : m.EdgesAgree) {p : BlockId} (hp : m.producer? id = some p) :
    p.index < m.blocks.size := by
  obtain ⟨c, hc, -⟩ := h.block_of_producer hp
  exact block?_lt hc

theorem Reads.lt {i p : BlockId} (h : m.Reads i p) (hm : m.EdgesAgree) : p.index < m.blocks.size := by
  obtain ⟨c, x, -, -, hp⟩ := h
  exact hm.producer?_lt hp

/-- A new block without inputs goes below all others. -/
theorem Ranked.attach_source (h : m.Ranked) (hm : m.EdgesAgree) (hinputs : b.inputs = []) :
    (m.attach b).Ranked := by
  obtain ⟨rank, hrank⟩ := h
  refine ⟨fun i => if i.index = m.blocks.size then 0 else rank i + 1, ?_⟩
  intro i p hr
  dsimp only
  rcases attach_reads hr hm with ⟨-, x, hx, -⟩ | ⟨hi, ⟨rfl, -⟩ | hr⟩
  · rw [hinputs] at hx
    cases hx
  · rw [if_pos rfl, if_neg (Nat.ne_of_lt hi)]
    exact Nat.succ_pos _
  · rw [if_neg (Nat.ne_of_lt (hr.lt hm)), if_neg (Nat.ne_of_lt hi)]
    exact Nat.succ_lt_succ (hrank i p hr)

/-- A new block without output goes above the one it reads. -/
theorem Ranked.attach_sink (h : m.Ranked) (hm : m.EdgesAgree) (hid : id.index < m.signals.size)
    (hinputs : b.inputs = [id]) (houtput : b.output = none) : (m.attach b).Ranked := by
  obtain ⟨rank, hrank⟩ := h
  refine ⟨fun i => if i.index = m.blocks.size then (m.producer? id).elim 0 fun p => rank p + 1
    else rank i, ?_⟩
  intro i p hr
  dsimp only
  rcases attach_reads hr hm with ⟨hi, x, hx, hp⟩ | ⟨hi, ⟨-, hout⟩ | hr⟩
  · rw [hinputs, List.mem_singleton] at hx
    rw [hx, attach_producer? hid, if_neg (by rw [houtput]; exact nofun)] at hp
    rw [if_pos hi, if_neg (Nat.ne_of_lt (hm.producer?_lt hp)), hp]
    exact Nat.lt_succ_self _
  · exact absurd houtput hout
  · rw [if_neg (Nat.ne_of_lt (hr.lt hm)), if_neg (Nat.ne_of_lt hi)]
    exact hrank i p hr

end Attach

section Splice

variable [Scalar α]

theorem splice_producer?_new :
    (m.splice id s).producer? ⟨m.signals.size⟩ = some ⟨m.blocks.size⟩ := by
  have hlast : (⟨m.signals.size⟩ : SignalId).index < (m.split id s).signals.size := by
    rw [split_signals_size]
    exact Nat.lt_succ_self _
  rw [splice, attach_producer? hlast, split_size]
  exact if_pos rfl

theorem splice_producer?_old (hs : m.signal? id = some s) {j : SignalId}
    (hj : j.index < m.signals.size) : (m.splice id s).producer? j = m.producer? j := by
  obtain ⟨x, hx⟩ := exists_signal hj
  by_cases hsame : j = id
  · subst hsame
    cases hs.symm.trans hx
    rw [producer?, signal?, splice_signals hs, Array.getElem?_push, Array.size_setIfInBounds,
      if_neg (Nat.ne_of_lt hj), Array.getElem?_setIfInBounds, if_pos rfl, if_pos hj, producer?, hs]
    rfl
  · rw [producer?, splice_signal?_of_ne hs hsame hx, producer?, hx]

/-- The limiter goes between the producer of the signal and all that read it. -/
theorem Ranked.splice (h : m.Ranked) (hm : m.EdgesAgree) (hs : m.signal? id = some s) :
    (m.splice id s).Ranked := by
  obtain ⟨rank, hrank⟩ := h
  refine ⟨fun i => if i.index = m.blocks.size then (m.producer? id).elim 0 fun p => 2 * rank p + 2
    else 2 * rank i + 1, ?_⟩
  rintro i p ⟨c, x, hc, hx, hp⟩
  dsimp only
  rw [splice_block?] at hc
  split at hc
  · rename_i hi
    cases hc
    obtain rfl := List.mem_singleton.mp hx
    rw [splice_producer?_old hs (signal?_lt hs)] at hp
    rw [if_pos hi, if_neg (Nat.ne_of_lt (hm.producer?_lt hp)), hp]
    exact Nat.lt_succ_self _
  · rename_i hi
    obtain ⟨b, hb, rfl⟩ := Option.map_eq_some_iff.mp hc
    obtain ⟨y, hy, rfl⟩ := List.mem_map.mp hx
    rw [if_neg hi]
    split at hp
    · rename_i hyid
      cases splice_producer?_new.symm.trans hp
      rw [if_pos rfl]
      cases hq : m.producer? id with
      | none => exact Nat.succ_pos _
      | some q =>
          have := hrank i q ⟨b, y, hb, hy, hyid ▸ hq⟩
          simp only [Option.elim_some]
          omega
    · rw [splice_producer?_old hs (hm.inputs i b hb y hy)] at hp
      have hr : m.Reads i p := ⟨b, y, hb, hy, hp⟩
      have := hrank i p hr
      rw [if_neg (Nat.ne_of_lt (hr.lt hm))]
      omega

end Splice

section Runnable

variable [Scalar α]

theorem all_fit_of_bare (h : ∀ id b, m.block? id = some b → m.Fits b) (hbare : m'.bare = m.bare) :
    ∀ id b, m'.block? id = some b → m'.Fits b := by
  intro id b hb
  obtain ⟨c, hc, -, hkind, hslots, -⟩ := block_of_bare hbare hb
  have hfits := h id c hc
  rwa [Fits, hkind, hslots, ← tables_of_bare hbare] at hfits

theorem Fed.of_bare (h : m.Fed) (hbare : m'.bare = m.bare) : m'.Fed := by
  intro id b hb x hx
  obtain ⟨c, hc, -, -, hslots, -⟩ := block_of_bare hbare hb
  rw [producer?_of_bare hbare]
  exact h id c hc x (hslots ▸ hx)

/-- What a model needs, besides producers, for its evaluations to succeed. -/
structure Schedulable (m : Model α) : Prop where
  fits : ∀ id b, m.block? id = some b → m.Fits b
  ranked : m.Ranked

structure Runnable (m : Model α) : Prop extends m.Schedulable where
  fed : m.Fed

/-- What one change by completion makes of the blocks: those it finds keep their kind and input count. -/
theorem Extends.block_cases (h : Extends m m') {p : BlockId} {c : Block α} (hc : m'.block? p = some c) :
    (∃ b, m.block? p = some b ∧ c.kind = b.kind ∧ c.inputs.length = b.inputs.length) ∨
      m.blocks.size ≤ p.index ∧ c.Auxiliary := by
  have hattach : ∀ {b : Block α}, b.Auxiliary → (m.attach b).block? p = some c →
      (∃ b, m.block? p = some b ∧ c.kind = b.kind ∧ c.inputs.length = b.inputs.length) ∨
        m.blocks.size ≤ p.index ∧ c.Auxiliary := by
    intro b hb hc
    rw [attach_block?] at hc
    split at hc
    · rename_i hp
      cases hc
      exact .inr ⟨Nat.le_of_eq hp.symm, hb⟩
    · exact .inl ⟨c, hc, rfl, rfl⟩
  cases h with
  | @limit id s hs _ =>
      rw [splice_block?] at hc
      split at hc
      · rename_i hp
        cases hc
        exact .inr ⟨Nat.le_of_eq hp.symm, s.limiter_auxiliary id ⟨m.signals.size⟩⟩
      · obtain ⟨b, hb, rfl⟩ := Option.map_eq_some_iff.mp hc
        exact .inl ⟨b, hb, rfl, List.length_map _⟩
  | @feed id s _ _ => exact hattach (s.feeder_auxiliary id) hc
  | @tap id s _ _ => exact hattach ⟨rfl, fun _ => rfl⟩ hc

/-- Completion puts nothing into a loop. -/
theorem Ranked.extends (h : m.Ranked) (hm : m.EdgesAgree) (hext : Extends m m') : m'.Ranked := by
  cases hext with
  | limit hs _ => exact h.splice hm hs
  | @feed id s hs _ => exact h.attach_source hm (s.feeder_inputs id)
  | tap hs _ => exact h.attach_sink hm (signal?_lt hs) rfl rfl

theorem Schedulable.extends (h : m.Schedulable) (hm : m.EdgesAgree) (hext : Extends m m') :
    m'.Schedulable := by
  constructor
  · intro p c hc
    rw [Fits, hext.grids.2]
    rcases hext.block_cases hc with ⟨b, hb, hkind, hlength⟩ | ⟨-, -, haccepts⟩
    · rw [hkind, hlength]
      exact h.fits p b hb
    · exact haccepts m.tables
  · exact h.ranked.extends hm hext

/-- Completion keeps a model runnable: on the way a limiter may read a signal without producer, but not
at the end. -/
theorem Runnable.complete (h : m.Runnable) (hm : m.EdgesAgree) (hrun : complete.run m = .ok () m') :
    m'.Runnable := by
  obtain ⟨m₁, hrun₁, hext, hcomplete⟩ := complete_run hm
  cases hrun.symm.trans hrun₁
  obtain ⟨hedges, hschedulable⟩ := extends_keeps (P := fun n => n.EdgesAgree ∧ n.Schedulable)
    (fun n n' hstep hn => ⟨hstep.edges hn.1, hn.2.extends hn.1 hstep⟩) hext ⟨hm, h.toSchedulable⟩
  exact ⟨hschedulable, hedges.fed hcomplete.fed⟩

theorem Runnable.of_bare (h : m.Runnable) (hbare : m'.bare = m.bare) : m'.Runnable := by
  obtain ⟨rank, hrank⟩ := h.ranked
  exact ⟨⟨all_fit_of_bare h.fits hbare, rank, fun b p hr => hrank b p (hr.of_bare hbare)⟩,
    h.fed.of_bare hbare⟩

/-- The search for an order ends well. -/
theorem Runnable.prepare (h : m.Runnable) (hm : m.Sound) (hnone : m.order = none) :
    ∃ m', prepare.run m = .ok () m' :=
  (h.fed.search_ends hm hnone).ok_of_fits h.fits h.ranked.no_loop

/-- A walk along an order of a graph whose blocks all fit comes to the end. -/
theorem IsOrder.walk {l : List BlockId} (hl : m.IsOrder l)
    (hfits : ∀ id b, m.block? id = some b → m.Fits b) (hfed : m.Fed) (hm : m.Sound)
    (horder : m.order = some l) : ∃ m', cycle.run m = .ok () m' := by
  have hnodup : l.Nodup := hl.1.nodup_iff.mpr (Handle.nodup_all _)
  rw [cycle_run_of_some horder]
  cases hwalk : (runOrder l).run m.advance with
  | ok u m₁ => exact ⟨_, rfl⟩
  | error e m₁ =>
      exfalso
      obtain ⟨pre, id, post, rfl, hpre, hvalue⟩ := hm.evaluated_start.runOrder_error_at hnodup
        (fun id _ => List.not_mem_nil) hwalk
      obtain ⟨b, hb⟩ := exists_block
        (Handle.mem_all.mp (hl.1.mem_iff.mp (List.mem_append_right pre List.mem_cons_self)))
      rcases hvalue b hb with herror | ⟨hstale, hb'⟩
      · obtain ⟨r, hr⟩ := hpre.nextValue_total hm.advance hfed hb (hfits id b hb)
        cases hr.symm.trans herror
      · obtain ⟨p, hr, hnot⟩ := hpre.waits hb' hstale
        exact absurd (hl.2 pre id post rfl p hr) hnot

end Runnable

end Model

end BlockDiagram
