import BlockDiagram.Proofs.Names
import BlockDiagram.Proofs.Model.Extension
import BlockDiagram.Proofs.Model.Evaluation
/-! Holders: where the signals of a model are found once it is complete. A signal that a limiter has
been put into is read behind it, and the half behind it holds the variable ID. -/

namespace BlockDiagram

variable {α : Type}

theorem Signal.feeder_kind_beforeLimiter [Scalar α] (s : Signal α) (varId : String) (limiter : BlockId)
    (id : SignalId) : ((s.beforeLimiter varId limiter).feeder id).kind = (s.feeder id).kind := by
  unfold feeder beforeLimiter Roles.isExternal
  dsimp only
  cases s.initial with
  | none => rfl
  | some value =>
      dsimp only
      split
      · rfl
      · rfl

namespace Model

/-- No two signals have one variable ID. -/
def Distinct (m : Model α) : Prop :=
  ∀ i j s t, m.signal? i = some s → m.signal? j = some t → s.varId = t.varId → i = j

theorem signalNamed?_of_distinct {m : Model α} (h : m.Distinct) {id : SignalId} {s : Signal α}
    (hs : m.signal? id = some s) : m.signalNamed? s.varId = some s := by
  have hfind : (m.signals.findIdx? fun t => t.varId == s.varId) = some id.index := by
    refine (findIdx_eq_some_iff ?_).mpr ⟨s, hs, rfl⟩
    intro i j x y hx hy hxy
    exact congrArg Handle.index (h ⟨i⟩ ⟨j⟩ x y hx hy hxy)
  rw [signalNamed?, signalId?, hfind]
  exact hs

theorem mem_varIds {m : Model α} {v : String} :
    v ∈ m.varIds ↔ ∃ id s, m.signal? id = some s ∧ s.varId = v := by
  simp only [varIds, List.mem_map, Array.mem_toList_iff, Array.mem_iff_getElem?]
  constructor
  · rintro ⟨s, ⟨i, hi⟩, rfl⟩
    exact ⟨⟨i⟩, s, hi, rfl⟩
  · rintro ⟨id, s, hs, rfl⟩
    exact ⟨s, ⟨id.index, hs⟩, rfl⟩

theorem Distinct.attach {m : Model α} (h : m.Distinct) (b : Block α) : (m.attach b).Distinct := by
  intro i j s t hs ht heq
  rw [attach_signal?] at hs ht
  obtain ⟨s₀, hs₀, rfl⟩ := Option.map_eq_some_iff.mp hs
  obtain ⟨t₀, ht₀, rfl⟩ := Option.map_eq_some_iff.mp ht
  exact h i j s₀ t₀ hs₀ ht₀ heq

variable [Scalar α] {m m' f : Model α}

theorem Distinct.splice (h : m.Distinct) {id : SignalId} {s : Signal α} (hs : m.signal? id = some s) :
    (m.splice id s).Distinct := by
  have hfresh := freshName_not_mem m.varIds (s.varId ++ "_unlim")
  rw [mem_varIds] at hfresh
  intro i j x y hx hy heq
  rcases splice_signal_cases hs hx with ⟨rfl, rfl⟩ | ⟨rfl, rfl⟩ | ⟨hi, hold⟩ <;>
    rcases splice_signal_cases hs hy with ⟨rfl, rfl⟩ | ⟨rfl, rfl⟩ | ⟨hj, hold'⟩
  · rfl
  · exact absurd ⟨_, s, hs, heq.symm⟩ hfresh
  · exact absurd ⟨_, y, hold', heq.symm⟩ hfresh
  · exact absurd ⟨_, s, hs, heq⟩ hfresh
  · rfl
  · exact absurd (h _ _ _ _ hold' hs heq.symm) hj
  · exact absurd ⟨_, x, hold, heq⟩ hfresh
  · exact absurd (h _ _ _ _ hold hs heq) hi
  · exact h _ _ _ _ hold hold' heq

omit [Scalar α] in
theorem Distinct.of_bare [Arithmetic α] (h : m.Distinct) (hbare : m'.bare = m.bare) : m'.Distinct := by
  intro i j s t hs ht
  rw [signal?_of_bare hbare] at hs ht
  exact h i j s t hs ht

theorem Distinct.extends (h : m.Distinct) (hext : Relation.ReflTransGen Extends m m') : m'.Distinct := by
  refine extends_keeps ?_ hext h
  rintro m m' (⟨hs, -⟩ | ⟨hs, -⟩ | ⟨hs, -⟩) hm
  · exact hm.splice hs
  · exact hm.attach _
  · exact hm.attach _

/-- The model `f` has the blocks and the signals of `m`. What read a signal reads its holder now, which
is the signal itself or the output of its limiter. A signal without producer has got one. -/
structure Completed (m f : Model α) (holder : SignalId → SignalId) : Prop where
  blocks : ∀ id b, m.block? id = some b → ∃ c, f.block? id = some c ∧ c.kind = b.kind ∧
    c.inputs = b.inputs.map holder ∧ c.output = b.output
  named : ∀ id s, m.signal? id = some s → ∃ t, f.signal? (holder id) = some t ∧ t.varId = s.varId
  free : ∀ id s, m.signal? id = some s → s.needsLimiter = false → holder id = id
  limited : ∀ id s, m.signal? id = some s → s.needsLimiter = true → ∃ p c, f.block? p = some c ∧
    c.kind = .limiterBetween s.lower s.upper ∧ c.inputs = [id] ∧ c.output = some (holder id)
  fed : ∀ id s, m.signal? id = some s → s.source = none → ∃ p c, f.block? p = some c ∧
    c.kind = (s.feeder id).kind ∧ c.output = some id

namespace Completed

variable {holder : SignalId → SignalId}

theorem of_bare {f' : Model α} (h : m.Completed f holder) (hbare : f'.bare = f.bare) :
    m.Completed f' holder := by
  have hblock : ∀ {p c}, f.block? p = some c → ∃ c', f'.block? p = some c' ∧ c'.kind = c.kind ∧
      c'.inputs = c.inputs ∧ c'.output = c.output := by
    intro p c hc
    obtain ⟨c', hc', -, hsame⟩ := block_of_bare hbare.symm hc
    exact ⟨c', hc', hsame⟩
  constructor
  · intro id b hb
    obtain ⟨c, hc, hkind, hinputs, houtput⟩ := h.blocks id b hb
    obtain ⟨c', hc', hkind', hinputs', houtput'⟩ := hblock hc
    exact ⟨c', hc', hkind'.trans hkind, hinputs'.trans hinputs, houtput'.trans houtput⟩
  · intro id s hs
    rw [signal?_of_bare hbare]
    exact h.named id s hs
  · exact h.free
  · intro id s hs hneed
    obtain ⟨p, c, hc, hkind, hinputs, houtput⟩ := h.limited id s hs hneed
    obtain ⟨c', hc', hkind', hinputs', houtput'⟩ := hblock hc
    exact ⟨p, c', hc', hkind'.trans hkind, hinputs'.trans hinputs, houtput'.trans houtput⟩
  · intro id s hs hsource
    obtain ⟨p, c, hc, hkind, houtput⟩ := h.fed id s hs hsource
    obtain ⟨c', hc', hkind', -, houtput'⟩ := hblock hc
    exact ⟨p, c', hc', hkind'.trans hkind, houtput'.trans houtput⟩

theorem refl (h : m.Complete) : m.Completed m id where
  blocks := fun id b hb => ⟨b, hb, rfl, by rw [List.map_id], rfl⟩
  named := fun id s hs => ⟨s, hs, rfl⟩
  free := fun _ _ _ _ => rfl
  limited := by
    intro id s hs hneed
    rw [h.limited id s hs] at hneed
    cases hneed
  fed := by
    intro id s hs hsource
    obtain ⟨e, he⟩ := h.fed id s hs
    rw [hsource] at he
    cases he

/-- A block that is attached produces nothing, or what had no producer. -/
theorem of_attach {b : Block α} (h : (m.attach b).Completed f holder)
    (hfeeds : ∀ id s, m.signal? id = some s → b.output = some id → b.kind = (s.feeder id).kind) :
    m.Completed f holder := by
  constructor
  · exact fun id c hc => h.blocks id c (attach_block?_of_some hc)
  · exact fun id s hs => h.named id (s.joined id _ b) (attach_signal?_of_some hs)
  · exact fun id s hs hneed => h.free id _ (attach_signal?_of_some hs) hneed
  · exact fun id s hs hneed => h.limited id (s.joined id _ b) (attach_signal?_of_some hs) hneed
  · intro id s hs hsource
    by_cases hout : b.output = some id
    · obtain ⟨c, hc, hkind, -, houtput⟩ := h.blocks ⟨m.blocks.size⟩ _ (by rw [attach_block?, if_pos rfl])
      exact ⟨_, c, hc, hkind.trans (hfeeds id s hs hout), houtput.trans hout⟩
    · refine h.fed id (s.joined id _ b) (attach_signal?_of_some hs) ?_
      rw [Signal.joined]
      dsimp only
      rw [if_neg hout]
      exact hsource

theorem of_splice {id : SignalId} {s : Signal α} (hs : m.signal? id = some s)
    (hneed : s.needsLimiter = true) (h : (m.splice id s).Completed f holder) :
    m.Completed f fun j => holder (if j = id then ⟨m.signals.size⟩ else j) := by
  have hafter := splice_signal?_back hs
  have hbefore := splice_signal?_front hs
  have hlimiter : (m.splice id s).block? ⟨m.blocks.size⟩ = some { s.limiter id ⟨m.signals.size⟩ with
      name := freshName m.blockNames (s.limiter id ⟨m.signals.size⟩).name } := by
    rw [splice_block?, if_pos rfl]
  constructor
  · intro i b hb
    have hb' : (m.splice id s).block? i = some (b.redirect id ⟨m.signals.size⟩) := by
      rw [splice_block?, if_neg (Nat.ne_of_lt (block?_lt hb)), hb]
      rfl
    obtain ⟨c, hc, hkind, hinputs, houtput⟩ := h.blocks i _ hb'
    refine ⟨c, hc, hkind, ?_, houtput⟩
    rw [hinputs, Block.redirect, List.map_map]
    rfl
  · intro j x hx
    by_cases hj : j = id
    · subst hj
      cases hs.symm.trans hx
      rw [if_pos rfl]
      exact h.named _ (s.afterLimiter _) hafter
    · rw [if_neg hj]
      exact h.named j x (splice_signal?_of_ne hs hj hx)
  · intro j x hx hfree
    by_cases hj : j = id
    · subst hj
      cases hs.symm.trans hx
      rw [hneed] at hfree
      cases hfree
    · rw [if_neg hj]
      exact h.free j x (splice_signal?_of_ne hs hj hx) hfree
  · intro j x hx hxneed
    by_cases hj : j = id
    · subst hj
      cases hs.symm.trans hx
      rw [if_pos rfl, h.free _ _ hafter rfl]
      obtain ⟨c, hc, hkind, hinputs, houtput⟩ := h.blocks _ _ hlimiter
      refine ⟨_, c, hc, hkind, ?_, houtput⟩
      rw [hinputs]
      exact congrArg (fun x => [x]) (h.free j _ hbefore rfl)
    · rw [if_neg hj]
      exact h.limited j x (splice_signal?_of_ne hs hj hx) hxneed
  · intro j x hx hsource
    by_cases hj : j = id
    · subst hj
      cases hs.symm.trans hx
      obtain ⟨p, c, hc, hkind, houtput⟩ := h.fed j _ hbefore hsource
      exact ⟨p, c, hc, hkind.trans (s.feeder_kind_beforeLimiter _ _ _), houtput⟩
    · exact h.fed j x (splice_signal?_of_ne hs hj hx) hsource

end Completed

/-- Completion gives every signal a holder. The induction goes back from the complete model. -/
theorem exists_holder (h : Relation.ReflTransGen Extends m f) (hf : f.Complete) :
    ∃ holder, m.Completed f holder := by
  induction h using Relation.ReflTransGen.head_induction_on with
  | refl => exact ⟨id, .refl hf⟩
  | head hstep _ ih =>
      obtain ⟨holder, hholder⟩ := ih
      cases hstep with
      | limit hs hneed => exact ⟨_, hholder.of_splice hs hneed⟩
      | @feed id s hs hsource =>
          refine ⟨holder, hholder.of_attach ?_⟩
          intro j x hx hout
          rw [s.feeder_output] at hout
          cases hout
          cases hs.symm.trans hx
          rfl
      | tap hs hneed =>
          refine ⟨holder, hholder.of_attach ?_⟩
          intro j x hx hout
          cases hout

end Model

end BlockDiagram
