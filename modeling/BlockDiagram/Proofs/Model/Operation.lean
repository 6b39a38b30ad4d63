import BlockDiagram.Proofs.Model.Settled
import Mathlib.Data.Option.Basic
/-! Operation: what a complete model can be brought to. Values are assigned to its inputs and calls are
made on it, failed ones included, but the graph stays the one that was built. -/

namespace BlockDiagram

open Call

variable {α : Type}

namespace Model

variable {m m' : Model α}

/-- The input block that drives a variable: the producer of its signal, or the one behind its limiter. -/
def driver? (m : Model α) (varId : String) : Option BlockId := do
  let s ← m.signalNamed? varId
  let source ← s.source
  if m.inputs.contains source.block then some source.block else m.limitedInput? s

/-- The value that the input block of a variable holds. -/
def held? (m : Model α) (varId : String) : Option α :=
  (m.driver? varId).bind fun p => (m.block? p).map Block.value

theorem limitedInput?_eq_some {s : Signal α} {p : BlockId} :
    m.limitedInput? s = some p ↔ ∃ e b x u e', s.source = some e ∧ m.block? e.block = some b ∧
      b.kind.isLimiter = true ∧ b.inputs.head? = some x ∧ m.signal? x = some u ∧
      u.source = some e' ∧ e'.block = p ∧ p ∈ m.inputs := by
  simp only [limitedInput?, Option.bind_eq_bind, Option.bind_eq_some_iff, Option.guard_eq_some',
    Option.pure_def, Option.some.injEq, List.contains_iff_mem]
  constructor
  · rintro ⟨e, he, b, hb, -, hlimiter, x, hx, u, hu, e', he', -, hin, rfl⟩
    exact ⟨e, b, x, u, e', he, hb, hlimiter, hx, hu, he', rfl, hin⟩
  · rintro ⟨e, b, x, u, e', he, hb, hlimiter, hx, hu, he', rfl, hin⟩
    exact ⟨e, he, b, hb, (), hlimiter, x, hx, u, hu, e', he', (), hin, rfl⟩

theorem driver?_eq_some {varId : String} {p : BlockId} :
    m.driver? varId = some p ↔ ∃ s e, m.signalNamed? varId = some s ∧ s.source = some e ∧
      (e.block ∈ m.inputs ∧ e.block = p ∨ e.block ∉ m.inputs ∧ m.limitedInput? s = some p) := by
  simp only [driver?, Option.bind_eq_bind, Option.bind_eq_some_iff]
  refine exists_congr fun s => ?_
  constructor
  · rintro ⟨hs, e, he, h⟩
    refine ⟨e, hs, he, ?_⟩
    split at h
    · cases h
      exact .inl ⟨List.contains_iff_mem.mp ‹_›, rfl⟩
    · exact .inr ⟨fun hin => ‹¬ _› (List.contains_iff_mem.mpr hin), h⟩
  · rintro ⟨e, hs, he, ⟨hin, rfl⟩ | ⟨hnot, h⟩⟩
    · exact ⟨hs, e, he, by rw [if_pos (List.contains_iff_mem.mpr hin)]⟩
    · exact ⟨hs, e, he, by rw [if_neg fun hin => hnot (List.contains_iff_mem.mp hin)]; exact h⟩

theorem driver?_mem {varId : String} {p : BlockId} (h : m.driver? varId = some p) : p ∈ m.inputs := by
  obtain ⟨s, e, -, -, ⟨hin, rfl⟩ | ⟨-, h⟩⟩ := driver?_eq_some.mp h
  · exact hin
  · obtain ⟨-, -, -, -, -, -, -, -, -, -, -, -, hin⟩ := limitedInput?_eq_some.mp h
    exact hin

section Bare

variable [Arithmetic α]

theorem limitedInput?_of_bare (h : m.bare = m'.bare) (s : Signal α) :
    m.limitedInput? s = m'.limitedInput? s := by
  have hone : ∀ {n n' : Model α} {p : BlockId}, n.bare = n'.bare → n.limitedInput? s = some p →
      n'.limitedInput? s = some p := by
    intro n n' p hbare hp
    obtain ⟨e, b, x, u, e', he, hb, hlimiter, hx, hu, he', hblock, hin⟩ := limitedInput?_eq_some.mp hp
    obtain ⟨c, hc, -, hkind, hslots, -⟩ := block_of_bare hbare hb
    exact limitedInput?_eq_some.mpr ⟨e, c, x, u, e', he, hc, hkind ▸ hlimiter, hslots ▸ hx,
      by rw [← signal?_of_bare hbare]; exact hu, he', hblock, inputs_of_bare hbare ▸ hin⟩
  refine Option.ext fun p => ⟨hone h, hone h.symm⟩

theorem signalNamed?_of_bare (h : m.bare = m'.bare) (varId : String) :
    m.signalNamed? varId = m'.signalNamed? varId := by
  rw [signalNamed?, signalNamed?, signalId?, signalId?, signals_of_bare h]
  simp only [signal?_of_bare h]

theorem driver?_of_bare (h : m.bare = m'.bare) (varId : String) :
    m.driver? varId = m'.driver? varId := by
  simp only [driver?, signalNamed?_of_bare h, inputs_of_bare h, limitedInput?_of_bare h]

end Bare

/-- On a complete model completion has nothing to do. -/
theorem Complete.run [Scalar α] (h : m.Complete) (hm : m.EdgesAgree) : complete.run m = .ok () m := by
  obtain ⟨m', hrun, hext, -⟩ := complete_run hm
  rcases Relation.ReflTransGen.cases_head hext with rfl | ⟨n, hstep, -⟩
  · exact hrun
  · exfalso
    cases hstep with
    | limit hs hneed =>
        rw [h.limited _ _ hs] at hneed
        cases hneed
    | feed hs hsource =>
        obtain ⟨e, he⟩ := h.fed _ _ hs
        rw [hsource] at he
        cases he
    | tap hs hneed =>
        rw [h.tapped _ _ hs] at hneed
        cases hneed

theorem Complete.of_bare [Scalar α] (h : m.Complete) (hbare : m'.bare = m.bare) : m'.Complete := by
  constructor
  · intro id s hs
    rw [signal?_of_bare hbare] at hs
    exact h.limited id s hs
  · intro id s hs
    rw [signal?_of_bare hbare] at hs
    exact h.fed id s hs
  · intro id s hs
    rw [signal?_of_bare hbare] at hs
    rw [needsTap, hasTap]
    simp only [kindOf?_of_bare hbare]
    exact h.tapped id s hs

section Operated

variable [Scalar α]

theorem cycle_bare (hm : m.Sound) : (final cycle m).bare = m.bare := by
  cases hrun : cycle.run m with
  | ok u m' =>
      rw [final_of_ok hrun]
      exact Computes.bare_eq (.inl hrun) hm
  | error e m' =>
      rw [final_of_error hrun]
      obtain ⟨done, hdone⟩ := cycle_error_evaluated hm hrun
      exact hdone.bare

theorem prepare_bare (hm : m.Sound) : (final prepare m).bare = m.bare := by
  cases horder : m.order with
  | some l => rw [final_of_ok (prepare_run_of_some (by rw [horder]; rfl))]
  | none =>
      rw [final, ← cycle_run_eq_prepare horder]
      exact cycle_bare hm

/-- No call but completion changes the graph. -/
theorem call_bare_or_complete (c : ModelCall α) (hm : m.Sound) :
    c = .complete ∨ (final c.run m).bare = m.bare := by
  have hset : ∀ (n : Model α) (i : Nat) (value : α), n.bare = m.bare →
      ({ n with blocks := n.blocks.modify i fun b => { b with value } } : Model α).bare = m.bare :=
    fun n i value hbare => (n.set_value_bare i value).trans hbare
  cases c with
  | complete => exact .inl rfl
  | setInput key value => exact .inr (keeps_setInput hset key value m rfl)
  | loadInputs records => exact .inr (keeps_loadInputs hset records m rfl)
  | prepare => exact .inr (prepare_bare hm)
  | cycle => exact .inr (cycle_bare hm)

/-- No call changes the graph of a complete model. -/
theorem call_bare (c : ModelCall α) (hm : m.Sound) (hcomplete : m.Complete) :
    (final c.run m).bare = m.bare := by
  rcases call_bare_or_complete c hm with rfl | hbare
  · rw [ModelCall.run, final_of_ok (hcomplete.run hm.edges)]
  · exact hbare

/-- What the model `m₀` can be brought to by assigning values to input blocks and making calls. -/
inductive Operated (m₀ : Model α) : Model α → Prop
  | built : Operated m₀ m₀
  | assign {m : Model α} {id : BlockId} (value : α) : Operated m₀ m → id ∈ m.inputs →
      Operated m₀ { m with blocks := m.blocks.modify id.index fun b => { b with value } }
  | call {m : Model α} (c : ModelCall α) : Operated m₀ m → Operated m₀ (final c.run m)

theorem Operated.sound_and_bare {m₀ : Model α} (h : Operated m₀ m) (hm₀ : m₀.Sound)
    (hcomplete : m₀.Complete) : m.Sound ∧ m.bare = m₀.bare := by
  induction h with
  | built => exact ⟨hm₀, rfl⟩
  | @assign m id value _ _ ih => exact ⟨ih.1.set_value _ value, (m.set_value_bare _ value).trans ih.2⟩
  | call c _ ih =>
      exact ⟨c.keeps_sound _ ih.1, (call_bare c ih.1 (hcomplete.of_bare ih.2)).trans ih.2⟩

theorem Operated.computes {m₀ : Model α} (h : Operated m₀ m) (hrun : m.Computes m') :
    Operated m₀ m' := by
  rcases hrun with hrun | ⟨-, hrun⟩
  · have hcall := h.call .cycle
    rwa [ModelCall.run, final_of_ok hrun] at hcall
  · have hcall := h.call .prepare
    rwa [ModelCall.run, final_of_ok hrun] at hcall

theorem Computes.held?_eq (h : m.Computes m') (hm : m.Sound) : m'.held? = m.held? := by
  funext varId
  have hbare := h.bare_eq hm
  rw [held?, held?, driver?_of_bare hbare]
  cases hp : m.driver? varId with
  | none => rfl
  | some p =>
      have hin := driver?_mem hp
      rw [hm.enrolled.inputs, List.mem_filter, Option.any_eq_true] at hin
      obtain ⟨-, k, hk, hinput⟩ := hin
      obtain ⟨b, hb, rfl⟩ := Option.map_eq_some_iff.mp hk
      obtain ⟨b', hb', -, hkind, -⟩ := block_of_bare hbare.symm hb
      obtain ⟨c, hc, hvalue⟩ := (h.settled hm).kept p b' hb' (hkind ▸ hinput)
      rw [Option.bind_some, Option.bind_some, hb', hc, Option.map_some, Option.map_some, hvalue]

/-- The last of several evaluations sees the input values that the first one saw. -/
theorem Operated.last_evaluation {m₀ : Model α} (h : Operated m₀ m) (hm₀ : m₀.Sound)
    (hcomplete : m₀.Complete) (hrun : Relation.TransGen Computes m m') :
    ∃ n, Operated m₀ n ∧ n.held? = m.held? ∧ n.Computes m' := by
  induction hrun with
  | single hrun => exact ⟨m, h, rfl, hrun⟩
  | tail _ hlast ih =>
      obtain ⟨n, hn, hheld, hfirst⟩ := ih
      exact ⟨_, hn.computes hfirst,
        (hfirst.held?_eq (hn.sound_and_bare hm₀ hcomplete).1).trans hheld, hlast⟩

end Operated

end Model

theorem Draft.built_sound_complete [Scalar α] {d : Draft α} (hd : d.Sound) {m : Model α}
    (h : d.build = .ok m) : m.Sound ∧ m.Complete := by
  obtain ⟨w, -, hw, -, hext, hcomplete⟩ := build_ok hd h
  exact ⟨Model.extends_keeps (fun _ _ hstep => hstep.sound) hext (hw.sound hd), hcomplete⟩

end BlockDiagram
