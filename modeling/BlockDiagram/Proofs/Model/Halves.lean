import BlockDiagram.Proofs.Draft.Solution
import BlockDiagram.Proofs.Model.Runnable
import BlockDiagram.Proofs.Scalar.Clamp
/-! Halves: what completion makes of a signal with limits, and what it leaves of everything else. The
front half keeps the producer and feeds a limiter; the back half has the name and the consumers. -/

namespace BlockDiagram

open Call

variable {α : Type} [Scalar α]

namespace Model

variable {m f : Model α} {holder : SignalId → SignalId}

/-- The consumers of `t` are those of `s`, and after them an output block of the model `f` if there was
need of one. -/
def Consumed (m f : Model α) (s t : Signal α) : Prop :=
  t.sinks = s.sinks ∨ m.needsTap s = true ∧ ∃ p c, t.sinks = s.sinks ++ [⟨p, 0⟩] ∧
    f.block? p = some c ∧ c.kind = .output ∧ m.blocks.size ≤ p.index

/-- The signal `t` is what `s` has become: it has all that `s` had but for a producer it may have got and
an output block that may read it. -/
structure Kept (m f : Model α) (s t : Signal α) : Prop where
  unwired : t.unwired = s.unwired
  source : ∀ e, s.source = some e → t.source = some e
  consumed : m.Consumed f s t

/-- The limiter `p` stands in the signal `s`, which had the handle `id`. In front of it is the signal `u`
under that handle, behind it the signal `t` under the handle `n`. -/
structure Halved (m f : Model α) (id n : SignalId) (s : Signal α) (p : BlockId) (u t : Signal α) :
    Prop where
  front : f.signal? id = some u
  renamed : ∀ j x, m.signal? j = some x → x.varId ≠ u.varId
  driven : u.roles.input = s.roles.input ∧ u.roles.control = s.roles.control ∧
    u.roles.disturbance = s.roles.disturbance
  initial : u.initial = s.initial
  source : ∀ e, s.source = some e → u.source = some e
  sinks : u.sinks = [⟨p, 0⟩]
  limiter : ∃ c, f.block? p = some c ∧
    c.kind = .limiter (ascending s.lower s.upper).1 (ascending s.lower s.upper).2 ∧ c.inputs = [id] ∧
    c.output = some n
  back : f.signal? n = some t
  new : m.signals.size ≤ n.index
  label : t.varId = s.varId ∧ t.name = s.name ∧ t.units = s.units
  limits : t.lower = s.lower ∧ t.upper = s.upper
  output : t.roles.output = s.roles.output
  produced : t.source = some ⟨p, 0⟩
  consumed : m.Consumed f s t

/-- What has become of the blocks and the signals of `m` in the complete model `f`: what read a signal
reads its holder. -/
structure Traced (m f : Model α) (holder : SignalId → SignalId) : Prop where
  blocks : ∀ id b, m.block? id = some b → ∃ c, f.block? id = some c ∧ c.name = b.name ∧
    c.kind = b.kind ∧ c.inputs = b.inputs.map holder ∧ c.output = b.output
  free : ∀ id s, m.signal? id = some s → s.needsLimiter = false →
    holder id = id ∧ ∃ t, f.signal? id = some t ∧ m.Kept f s t
  limited : ∀ id s, m.signal? id = some s → s.needsLimiter = true →
    ∃ p u t, m.Halved f id (holder id) s p u t

theorem Traced.refl (h : m.Complete) : m.Traced m id where
  blocks := fun id b hb => ⟨b, hb, rfl, rfl, by rw [List.map_id], rfl⟩
  free := fun id s hs _ => ⟨rfl, s, hs, rfl, fun _ he => he, .inl rfl⟩
  limited := by
    intro id s hs hneed
    rw [h.limited id s hs] at hneed
    cases hneed

section Attach

variable {b : Block α}

/-- The block feeds a signal without producer, or it taps a signal that needs an output block. -/
structure Due (m : Model α) (b : Block α) : Prop where
  output : ∀ x, b.output = some x → ∃ s, m.signal? x = some s ∧ s.source = none
  inputs : b.inputs = [] ∨ ∃ id s, m.signal? id = some s ∧ m.needsTap s = true ∧ b = s.tap id

omit [Scalar α] in
theorem joined_sinks_nil {id : SignalId} {s : Signal α} {p : BlockId} (h : b.inputs = []) :
    (s.joined id p b).sinks = s.sinks := by
  rw [Signal.joined, h]
  exact List.append_nil s.sinks

theorem Consumed.of_attach {id : SignalId} {s t : Signal α} (hs : m.signal? id = some s)
    (hdue : m.Due b) (hblock : ∃ c, f.block? ⟨m.blocks.size⟩ = some c ∧ c.kind = b.kind)
    (h : (m.attach b).Consumed f (s.joined id ⟨m.blocks.size⟩ b) t) : m.Consumed f s t := by
  have hs' := attach_signal?_of_some (b := b) hs
  have hneed : (m.attach b).needsTap (s.joined id ⟨m.blocks.size⟩ b) = true →
      m.needsTap s = true := by
    intro hneed
    by_contra hnot
    rw [needsTap_of_grows (.attach hdue.output) hs hs' (by simpa using hnot)] at hneed
    cases hneed
  have hsame : (s.joined id ⟨m.blocks.size⟩ b).sinks = s.sinks → m.Consumed f s t := by
    intro hsinks
    rcases h with h | ⟨htap, p, c, h, hc, hkind, hp⟩
    · exact .inl (h.trans hsinks)
    · refine .inr ⟨hneed htap, p, c, by rw [h, hsinks], hc, hkind, ?_⟩
      rw [attach_size] at hp
      exact Nat.le_of_succ_le hp
  rcases hdue.inputs with hnil | ⟨j, x, hx, htap, rfl⟩
  · exact hsame (joined_sinks_nil hnil)
  · by_cases hj : j = id
    · subst hj
      cases hs.symm.trans hx
      obtain ⟨c, hc, hkind⟩ := hblock
      rcases h with h | ⟨hagain, -⟩
      · rw [joined_sinks_tap, if_pos rfl] at h
        exact .inr ⟨htap, _, c, h, hc, hkind, Nat.le_refl _⟩
      · rw [needsTap_tapped] at hagain
        cases hagain
    · refine hsame ?_
      rw [joined_sinks_tap, if_neg hj]

theorem joined_source_of_some {id : SignalId} {s : Signal α} (hs : m.signal? id = some s)
    (hdue : m.Due b) {p : BlockId} {e : Endpoint} (he : s.source = some e) :
    (s.joined id p b).source = some e := by
  rw [Signal.joined]
  dsimp only
  split
  · obtain ⟨x, hx, hnone⟩ := hdue.output id ‹_›
    cases hs.symm.trans hx
    rw [he] at hnone
    cases hnone
  · exact he

theorem Traced.of_attach (h : (m.attach b).Traced f holder) (hdue : m.Due b) : m.Traced f holder := by
  have hblock : ∃ c, f.block? ⟨m.blocks.size⟩ = some c ∧ c.kind = b.kind := by
    obtain ⟨c, hc, -, hkind, -⟩ := h.blocks ⟨m.blocks.size⟩ _ (by rw [attach_block?, if_pos rfl])
    exact ⟨c, hc, hkind⟩
  constructor
  · exact fun i c hc => h.blocks i c (attach_block?_of_some hc)
  · intro id s hs hneed
    obtain ⟨hholder, t, ht, hkept⟩ := h.free id _ (attach_signal?_of_some hs) hneed
    exact ⟨hholder, t, ht, hkept.unwired,
      fun e he => hkept.source e (joined_source_of_some hs hdue he),
      hkept.consumed.of_attach hs hdue hblock⟩
  · intro id s hs hneed
    obtain ⟨p, u, t, hhalved⟩ := h.limited id _ (attach_signal?_of_some hs) hneed
    refine ⟨p, u, t, { hhalved with renamed := ?_, source := ?_, new := ?_, consumed := ?_ }⟩
    · exact fun j x hx => hhalved.renamed j (x.joined j _ b) (attach_signal?_of_some hx)
    · exact fun e he => hhalved.source e (joined_source_of_some hs hdue he)
    · rw [← attach_signals_size m b]
      exact hhalved.new
    · exact hhalved.consumed.of_attach hs hdue hblock

end Attach

section Splice

variable {id : SignalId} {s : Signal α}

/-- A splice moves consumers, but makes no output blocks. -/
theorem splice_needsTap (hm : m.EdgesAgree) {j : SignalId} {x y : Signal α} (hx : m.signal? j = some x)
    (hsinks : y.sinks = x.sinks) (houtput : y.roles.output = x.roles.output) :
    (m.splice id s).needsTap y = m.needsTap x := by
  have hkind : ∀ e ∈ x.sinks, ((m.splice id s).kindOf? e.block).any BlockKind.isOutput =
      (m.kindOf? e.block).any BlockKind.isOutput := by
    intro e he
    obtain ⟨b, hb, -⟩ := (hm.sinks j x hx e).mp he
    rw [kindOf?, splice_block?, if_neg (Nat.ne_of_lt (block?_lt hb)), kindOf?, hb]
    rfl
  have htap : (m.splice id s).hasTap y = m.hasTap x := by
    rw [hasTap, hasTap, hsinks, Bool.eq_iff_iff, List.any_eq_true, List.any_eq_true]
    exact exists_congr fun e => and_congr_right fun he => by rw [hkind e he]
  rw [needsTap, needsTap, htap, hsinks, houtput]

theorem Consumed.of_splice (hm : m.EdgesAgree) {j : SignalId} {x y t : Signal α}
    (hx : m.signal? j = some x) (hsinks : y.sinks = x.sinks)
    (houtput : y.roles.output = x.roles.output) (h : (m.splice id s).Consumed f y t) :
    m.Consumed f x t := by
  rcases h with h | ⟨hneed, p, c, h, hc, hkind, hp⟩
  · exact .inl (h.trans hsinks)
  · rw [splice_needsTap hm hx hsinks houtput] at hneed
    refine .inr ⟨hneed, p, c, by rw [h, hsinks], hc, hkind, ?_⟩
    rw [splice_size] at hp
    exact Nat.le_of_succ_le hp

/-- The two signals and the limiter that a splice makes of a signal. -/
theorem Traced.halved (h : (m.splice id s).Traced f holder) (hm : m.EdgesAgree)
    (hs : m.signal? id = some s) :
    ∃ u t, m.Halved f id (holder ⟨m.signals.size⟩) s ⟨m.blocks.size⟩ u t := by
  obtain ⟨hfront, u, hu, hukept⟩ := h.free _ _ (splice_signal?_front hs) rfl
  obtain ⟨hback, t, ht, htkept⟩ := h.free _ _ (splice_signal?_back hs) rfl
  obtain ⟨c, hc, -, hkind, hinputs, houtput⟩ := h.blocks ⟨m.blocks.size⟩ _
    (by rw [splice_block?, if_pos rfl])
  have hfresh := freshName_not_mem m.varIds (s.varId ++ "_unlim")
  generalize freshName m.varIds (s.varId ++ "_unlim") = v at *
  have hu' := hukept.unwired
  have ht' := htkept.unwired
  refine ⟨u, t, {
    front := hu
    renamed := ?_
    driven := ⟨(congrArg (fun x => x.roles.input) hu' :), (congrArg (fun x => x.roles.control) hu' :),
      (congrArg (fun x => x.roles.disturbance) hu' :)⟩
    initial := (congrArg Signal.initial hu' :)
    source := hukept.source
    sinks := ?_
    limiter := ⟨c, hc, hkind.trans (BlockKind.limiterBetween_eq _ _), ?_, ?_⟩
    back := ?_
    new := ?_
    label := ⟨(congrArg Signal.varId ht' :), (congrArg Signal.name ht' :),
      (congrArg Signal.units ht' :)⟩
    limits := ⟨(congrArg Signal.lower ht' :), (congrArg Signal.upper ht' :)⟩
    output := (congrArg (fun x => x.roles.output) ht' :)
    produced := htkept.source _ rfl
    consumed := htkept.consumed.of_splice hm hs rfl rfl }⟩
  · intro j x hx heq
    have hname : u.varId = v := (congrArg Signal.varId hu' :)
    exact hfresh (mem_varIds.mpr ⟨j, x, hx, heq.trans hname⟩)
  · -- The front half is read by the limiter and is no output, so it needs no output block.
    rcases hukept.consumed with hsinks | ⟨hneed, -⟩
    · exact hsinks
    · simp [needsTap, Signal.beforeLimiter] at hneed
  · rw [hinputs]
    exact congrArg (fun x => [x]) hfront
  · rw [houtput, hback]
    rfl
  · rw [hback]
    exact ht
  · rw [hback]

theorem Traced.of_splice (h : (m.splice id s).Traced f holder) (hm : m.EdgesAgree)
    (hs : m.signal? id = some s) (hneed : s.needsLimiter = true) :
    m.Traced f fun j => holder (if j = id then ⟨m.signals.size⟩ else j) := by
  constructor
  · intro i b hb
    have hb' : (m.splice id s).block? i = some (b.redirect id ⟨m.signals.size⟩) := by
      rw [splice_block?, if_neg (Nat.ne_of_lt (block?_lt hb)), hb]
      rfl
    obtain ⟨c, hc, hname, hkind, hinputs, houtput⟩ := h.blocks i _ hb'
    refine ⟨c, hc, hname, hkind, ?_, houtput⟩
    rw [hinputs, Block.redirect, List.map_map]
    rfl
  · intro j x hx hfree
    have hj : j ≠ id := by
      rintro rfl
      cases hs.symm.trans hx
      rw [hneed] at hfree
      cases hfree
    rw [if_neg hj]
    obtain ⟨hholder, t, ht, hkept⟩ := h.free j x (splice_signal?_of_ne hs hj hx) hfree
    exact ⟨hholder, t, ht, { hkept with consumed := hkept.consumed.of_splice hm hx rfl rfl }⟩
  · intro j x hx hxneed
    by_cases hj : j = id
    · subst hj
      cases hs.symm.trans hx
      rw [if_pos rfl]
      exact ⟨_, h.halved hm hs⟩
    · rw [if_neg hj]
      obtain ⟨p, u, t, hhalved⟩ := h.limited j x (splice_signal?_of_ne hs hj hx) hxneed
      refine ⟨p, u, t, { hhalved with renamed := ?_, new := ?_, consumed := ?_ }⟩
      · intro k y hy
        by_cases hk : k = id
        · subst hk
          cases hs.symm.trans hy
          exact hhalved.renamed _ (s.afterLimiter _) (splice_signal?_back hs)
        · exact hhalved.renamed k y (splice_signal?_of_ne hs hk hy)
      · have hnew := hhalved.new
        rw [splice_signals_size] at hnew
        exact Nat.le_of_succ_le hnew
      · exact hhalved.consumed.of_splice hm hx rfl rfl

end Splice

/-- Every part of a model can be traced to the complete model. The induction goes back from there. -/
theorem exists_trace (h : Relation.ReflTransGen Extends m f) (hf : f.Complete) (hm : m.EdgesAgree) :
    ∃ holder, m.Traced f holder := by
  induction h using Relation.ReflTransGen.head_induction_on with
  | refl => exact ⟨id, .refl hf⟩
  | @head m n hstep _ ih =>
      obtain ⟨holder, hholder⟩ := ih (hstep.edges hm)
      cases hstep with
      | limit hs hneed => exact ⟨_, hholder.of_splice hm hs hneed⟩
      | @feed id s hs hsource =>
          refine ⟨holder, hholder.of_attach ⟨?_, .inl (s.feeder_inputs id)⟩⟩
          rw [s.feeder_output]
          rintro x ⟨⟩
          exact ⟨s, hs, hsource⟩
      | @tap id s hs hneed =>
          refine ⟨holder, hholder.of_attach ⟨?_, .inr ⟨id, s, hs, hneed, rfl⟩⟩⟩
          rintro x ⟨⟩

end Model

end BlockDiagram
