import BlockDiagram.Proofs.Model.Names
/-! Idempotence: once a model has been completed, completion finds nothing to do, however the model has been
operated since. -/

namespace BlockDiagram

open Call

namespace Model

section Completed

variable {α : Type} [Scalar α] {m m' n : Model α} {x y : Directory}

theorem Recorded.unique (hx : m.Recorded x) (hy : m.Recorded y) : x = y :=
  hx.catalogued.2.exact.unique hy.catalogued.2.exact

/-- Completing a model again changes nothing, whether values have been assigned and calls made since or
not. -/
theorem Operated.completed (h : Operated m' n) (hsound : m'.Sound) (hcomplete : m'.Complete) :
    complete.run n = .ok () n := by
  obtain ⟨hn, hbare⟩ := h.sound_and_bare hsound hcomplete
  exact (hcomplete.of_bare hbare).run hn.edges

/-- A model that wiring a draft and calling the result leads to can be completed, and from then on completion
leaves the model, and the name tables kept beside it, as they are. -/
theorem Reachable.completion_idempotent (hm : m.Reachable) :
    ∃ m', complete.run m = .ok () m' ∧ ∀ n, Operated m' n → complete.run n = .ok () n ∧
      ∃! x, n.Recorded x := by
  obtain ⟨m', hrun, hext, hcomplete⟩ := complete_run hm.sound.edges
  have hsound : m'.Sound := extends_keeps (fun _ _ hstep => hstep.sound) hext hm.sound
  obtain ⟨x₀, hx₀⟩ := hm.hasDirectory
  obtain ⟨x, hx⟩ := hx₀.extends hext
  refine ⟨m', hrun, fun n hn => ⟨hn.completed hsound hcomplete, x, ?_⟩⟩
  have hrecorded : n.Recorded x := hx.evaluated (hn.sound_and_bare hsound hcomplete).2
  exact ⟨hrecorded, fun y hy => hy.unique hrecorded⟩

end Completed

/-- A limited input that a limiter reads already, a limited output, a constant and a tap of it. -/
def mingled : Draft Float :=
  .after "mingled"
    [ .signal (((Signal.declare "X" "x" "").withRole .input).withLimits (some 0) none),
      .signal (((Signal.declare "Y" "y" "").withRole .output).withLimits none (some 5)),
      .signal ((Signal.declare "Z" "z" "").withInitial 2),
      .block "lim" (.limiter 0 1), .input ⟨0⟩ 0 (.variable "X"), .output ⟨0⟩ (.variable "Y"),
      .block "tap" .output, .input ⟨1⟩ 0 (.variable "Z") ]

/-- Completion adds five blocks, and nothing after an input has been set and a cycle has found an order. -/
theorem mingled_completed :
    ∃ m m' n : Model Float, mingled.wire = .ok m ∧ complete.run m = .ok () m' ∧
      m'.blocks.size = m.blocks.size + 5 ∧ n = final cycle (final (setInput "X" 3) m') ∧
      n.order.isSome ∧ complete.run n = .ok () n := by
  have hruns : mingled.wire.toOption.any (fun m : Model Float => match complete.run m with
      | .ok () m' => (m'.blocks.size == m.blocks.size + 5) &&
          (final cycle (final (setInput "X" 3) m')).order.isSome
      | .error _ _ => false) = true := by decide +kernel
  obtain ⟨m, hm, hrun⟩ := outcome_of_any hruns
  have hreach : m.Reachable := .wired (Draft.reachable_after _ _) hm
  obtain ⟨m', hcomplete, hidempotent⟩ := Reachable.completion_idempotent hreach
  rw [hcomplete] at hrun
  dsimp only at hrun
  rw [Bool.and_eq_true, beq_iff_eq] at hrun
  have hoperated : Operated m' (final cycle (final (setInput "X" 3) m')) :=
    .call .cycle (.call (.setInput "X" 3) .built)
  exact ⟨m, m', _, hm, hcomplete, hrun.1, rfl, hrun.2, (hidempotent _ hoperated).1⟩

end Model

end BlockDiagram
