import BlockDiagram.Proofs.Model.Halves
/-! Transparency: a limiter changes nothing but the value behind it. Whoever asks for the variable finds
the value that its producer has computed, held between the limits. -/

namespace BlockDiagram

open Call

variable {α : Type} [Scalar α]

namespace Model

variable {m f g g' : Model α}

theorem Reachable.distinct (h : m.Reachable) : m.Distinct := by
  induction h with
  | wired hd hm => exact (Draft.wire_ok hd.sound hm).distinct hd.sound
  | @call m c hm ih =>
      rcases call_bare_or_complete c hm.sound with rfl | hbare
      · obtain ⟨m', hrun, hext, -⟩ := complete_run hm.sound.edges
        rw [ModelCall.run, final_of_ok hrun]
        exact ih.extends hext
      · exact ih.of_bare hbare

omit [Scalar α] in
theorem signalId?_of_distinct (h : m.Distinct) {id : SignalId} {s : Signal α}
    (hs : m.signal? id = some s) : m.signalId? s.varId = some id := by
  have hfind : (m.signals.findIdx? fun t => t.varId == s.varId) = some id.index := by
    refine (findIdx_eq_some_iff ?_).mpr ⟨s, hs, rfl⟩
    intro i j x y hx hy hxy
    exact congrArg Handle.index (h ⟨i⟩ ⟨j⟩ x y hx hy hxy)
  rw [signalId?, hfind]
  rfl

/-- Once the complete model has been evaluated, the back half carries what the front half carries, held
between the limits. -/
theorem Halved.clamped {id n : SignalId} {s u t : Signal α} {p : BlockId} (h : m.Halved f id n s p u t)
    (hdistinct : f.Distinct) (hbare : g'.bare = f.bare) (hg' : g'.EdgesAgree) (hsettled : Settled g g') :
    ∃ x, g'.valueOf? u.varId = some x ∧
      g'.valueOf? s.varId = some (clamp (ascending s.lower s.upper) x) := by
  obtain ⟨c, hc, hkind, hinputs, houtput⟩ := h.limiter
  obtain ⟨c', hc', -, hkind', hinputs', houtput'⟩ := block_of_bare hbare.symm hc
  rw [hkind] at hkind'
  rw [hinputs] at hinputs'
  obtain ⟨xs, hxs, hvalue⟩ := hsettled.solved p c' hc' (by rw [hkind']; rfl)
  rw [hinputs', List.forall₂_cons_left_iff] at hxs
  obtain ⟨x, ys, hx, hys, rfl⟩ := hxs
  cases hys
  have hclamp : c'.value = clamp (ascending s.lower s.upper) x := by
    have hx := hvalue x
    rw [hkind'] at hx
    exact (Except.ok.inj hx).symm
  have hname := hdistinct.of_bare hbare
  have hfront : g'.signal? id = some u := by rw [signal?_of_bare hbare]; exact h.front
  have hback : g'.signal? n = some t := by rw [signal?_of_bare hbare]; exact h.back
  refine ⟨x, by rw [valueOf?_of_distinct hname hfront, hx], ?_⟩
  rw [← h.label.1, valueOf?_of_distinct hname hback,
    hg'.valueOn?_of_output hc' (houtput'.trans houtput), hclamp]

/-- Completion puts a limiter into every signal with limits and changes nothing else that was there. The
variable of the signal belongs to a new signal then, which has taken over the consumers and shows the
value of the old one held between the limits; the old one has a fresh name and feeds the limiter. -/
theorem Reachable.limits_are_transparent [Comparable α] (h : m.Reachable) :
    ∃ f holder, complete.run m = .ok () f ∧
      (∀ id s, m.signal? id = some s → s.limited = false →
        (Arithmetic.isFinite s.lower || Arithmetic.isFinite s.upper) = true →
        ∃ p u t, m.Halved f id (holder id) s p u t ∧ f.signalId? s.varId = some (holder id) ∧
          (∀ g g', Operated f g → g.Computes g' → ∃ x y, g'.valueOf? u.varId = some x ∧
            g'.valueOf? s.varId = some y ∧ y = clamp (ascending s.lower s.upper) x ∧
            (isNumber y = true → Within (ascending s.lower s.upper) y)) ∧
          ∀ x, (Arithmetic.isFinite (ascending s.lower s.upper).1 = false →
              Arithmetic.lt x (ascending s.lower s.upper).1 = false) ∧
            (Arithmetic.isFinite (ascending s.lower s.upper).2 = false →
              Arithmetic.lt (ascending s.lower s.upper).2 x = false)) ∧
      (∀ id s, m.signal? id = some s → Arithmetic.isFinite s.lower = false →
        Arithmetic.isFinite s.upper = false →
        holder id = id ∧ ∃ t, f.signal? id = some t ∧ m.Kept f s t) ∧
      ∀ id b, m.block? id = some b → ∃ c, f.block? id = some c ∧ c.name = b.name ∧
        c.kind = b.kind ∧ c.inputs = b.inputs.map holder ∧ c.output = b.output := by
  obtain ⟨f, hrun, hext, hcomplete⟩ := complete_run h.sound.edges
  obtain ⟨holder, htrace⟩ := exists_trace hext hcomplete h.sound.edges
  have hdistinct := h.distinct.extends hext
  have hf : f.Sound := extends_keeps (fun _ _ hstep => hstep.sound) hext h.sound
  refine ⟨f, holder, hrun, ?_, ?_, htrace.blocks⟩
  · intro id s hs hfresh hfinite
    have hneed : s.needsLimiter = true := by
      rw [Signal.needsLimiter, hfresh, hfinite]
      rfl
    obtain ⟨p, u, t, hhalved⟩ := htrace.limited id s hs hneed
    refine ⟨p, u, t, hhalved, ?_, ?_, fun x => inactive_of_infinite hfinite⟩
    · rw [← hhalved.label.1]
      exact signalId?_of_distinct hdistinct hhalved.back
    · intro g g' hg hcomputes
      obtain ⟨hsound, hbare⟩ := hg.sound_and_bare hf hcomplete
      obtain ⟨x, hx, hy⟩ := hhalved.clamped hdistinct ((hcomputes.bare_eq hsound).trans hbare)
        (hcomputes.sound hsound).edges (hcomputes.settled hsound)
      exact ⟨x, _, hx, hy, rfl, clamp_within⟩
  · intro id s hs hlower hupper
    refine htrace.free id s hs ?_
    rw [Signal.needsLimiter, hlower, hupper, Bool.or_self, Bool.and_false]

/-- A signal whose limits come in the wrong order, and whose name with the suffix of a front half is
taken. -/
def bounded : Draft Float :=
  .after "bounded"
    [ .signal (Signal.declare "x_unlim" "" ""),
      .signal ((Signal.declare "x" "x" "").withLimits (some 1) (some 0)),
      .block "sum" .sum, .input ⟨0⟩ 0 (.variable "x"), .input ⟨0⟩ 1 (.variable "x_unlim"),
      .signal (Signal.declare "y" "y" ""), .output ⟨0⟩ (.variable "y") ]

theorem limits_are_transparent_bounded :
    ∃ (m f g : Model Float) (s : Signal Float) (y : Float), bounded.wire = .ok m ∧
      m.signal? ⟨1⟩ = some s ∧ s.varId = "x" ∧ complete.run m = .ok () f ∧ cycle.run f = .ok () g ∧
      g.valueOf? "x" = some y ∧ (isNumber y = true → Within (ascending s.lower s.upper) y) := by
  have hruns : bounded.wire.toOption.any (fun m =>
      ((m.signal? ⟨1⟩).any fun s => s.varId == "x" && !s.limited && Float.isFinite s.lower) &&
        ((do complete; cycle : Running Float Unit).run m) matches .ok _ _) = true := by decide +kernel
  obtain ⟨m, hm, hrun⟩ := outcome_of_any hruns
  rw [Bool.and_eq_true, Option.any_eq_true] at hrun
  obtain ⟨⟨s, hs, hsignal⟩, hrun⟩ := hrun
  rw [Bool.and_eq_true, Bool.and_eq_true, beq_iff_eq, Bool.not_eq_true'] at hsignal
  obtain ⟨⟨hname, hfresh⟩, hlower⟩ := hsignal
  have hfinite : (Arithmetic.isFinite s.lower || Arithmetic.isFinite s.upper) = true := by
    rw [Bool.or_eq_true]
    exact .inl hlower
  have hreach : m.Reachable := .wired (Draft.reachable_after _ _) hm
  split at hrun
  · rename_i v g hruns
    obtain ⟨w, f, hcomplete, hcycle⟩ := run_bind_ok.mp hruns
    obtain ⟨f', holder, hcomplete', hlimited, -⟩ := hreach.limits_are_transparent
    cases hcomplete.symm.trans hcomplete'
    obtain ⟨p, u, t, -, -, hvalues, -⟩ := hlimited ⟨1⟩ s hs hfresh hfinite
    obtain ⟨x, y, -, hy, -, hwithin⟩ := hvalues f g .built (.inl hcycle)
    exact ⟨m, f, g, s, y, hm, hs, hname, hcomplete, hcycle, hname ▸ hy, hwithin⟩
  · cases hrun

end Model

end BlockDiagram
