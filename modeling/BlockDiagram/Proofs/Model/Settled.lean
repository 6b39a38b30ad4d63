import BlockDiagram.Proofs.Model.Reachable
import BlockDiagram.Scalar.Double
import Mathlib.Data.List.Induction
/-! Settled models: a successful evaluation solves the equations of the diagram. The solution depends
on the wired graph and on the values of the input blocks, and on nothing that happened before. -/

namespace BlockDiagram

open Call

variable {α : Type} [Scalar α]

/-- Only an input block looks at the value it has. -/
theorem BlockKind.evaluate_current {sets : Array (BreakpointSet α)} {tables : Array (Table α)}
    {k : BlockKind α} (h : k.isInput = false) (x y : α) (xs : List α) :
    k.evaluate sets tables x xs = k.evaluate sets tables y xs := by
  -- No kind tells apart more than three inputs.
  cases k with
  | input => cases h
  | extremum e => cases e <;> rcases xs with _ | ⟨_, _⟩ <;> rfl
  | connective c => cases c <;> rfl
  | _ => rcases xs with _ | ⟨_, _ | ⟨_, _ | ⟨_, _⟩⟩⟩ <;> rfl

theorem BlockKind.evaluate_input {sets : Array (BreakpointSet α)} {tables : Array (Table α)}
    {k : BlockKind α} (h : k.isInput = true) (x : α) (xs : List α) :
    k.evaluate sets tables x xs = .ok x := by
  cases k with
  | input => rfl
  | _ => cases h

namespace Model

/-- Every block has been computed in the present epoch. An input block has kept the value it had in
`m₀`; any other has the value its kind takes on the values of its input signals, in slot order. -/
structure Settled (m₀ m : Model α) : Prop where
  current : ∀ id b, m.block? id = some b → b.isCurrent m.epoch = true
  kept : ∀ id b, m.block? id = some b → b.kind.isInput = true →
    ∃ b₀, m₀.block? id = some b₀ ∧ b.value = b₀.value
  solved : ∀ id b, m.block? id = some b → b.kind.isInput = false →
    ∃ xs, List.Forall₂ (fun s x => m.valueOn? s = some x) b.inputs xs ∧
      ∀ x, b.kind.evaluate m.breakpoints m.tables x xs = .ok b.value

/-- A successful evaluation of the whole model: a cycle, or finding an order. -/
def Computes (m m' : Model α) : Prop :=
  cycle.run m = .ok () m' ∨ m.order = none ∧ prepare.run m = .ok () m'

section Settled

variable {m m' : Model α}

theorem Computes.evaluated (h : m.Computes m') (hm : m.Sound) :
    ∃ l m₁, Evaluated m.advance l m₁ ∧ l.Perm m.blockIds ∧
      m' = ({ m₁ with order := some l } : Model α).harvest := by
  rcases h with hrun | ⟨hnone, hrun⟩
  · exact cycle_ok hm hrun
  · exact prepare_ok hm hnone hrun

theorem Evaluated.settled {l : List BlockId} (h : Evaluated m.advance l m') (hall : l.Perm m.blockIds) :
    Settled m m' := by
  have hdone : ∀ id b, m'.block? id = some b → id ∈ l := by
    intro id b hb
    have hlt := block?_lt hb
    rw [size_of_bare h.bare] at hlt
    exact hall.mem_iff.mpr (Handle.mem_all.mpr hlt)
  have hsolved : ∀ id b, m'.block? id = some b → ∃ b₀, m.block? id = some b₀ ∧
      ∃ xs, List.Forall₂ (fun s x => m'.valueOn? s = some x) b.inputs xs ∧
        b.kind.evaluate m'.breakpoints m'.tables b₀.value xs = .ok b.value := by
    intro id b hb
    obtain ⟨c, b₀, hc, hb₀, -, xs, hxs, heval⟩ := h.solved id (hdone id b hb)
    cases hb.symm.trans hc
    rw [h.breakpoints, h.tables]
    exact ⟨b₀, hb₀, xs, hxs, heval⟩
  constructor
  · intro id b hb
    rw [h.epoch]
    exact (h.current id b hb).mpr (hdone id b hb)
  · intro id b hb hinput
    obtain ⟨b₀, hb₀, xs, -, heval⟩ := hsolved id b hb
    rw [BlockKind.evaluate_input hinput] at heval
    exact ⟨b₀, hb₀, (Except.ok.inj heval).symm⟩
  · intro id b hb hinput
    obtain ⟨b₀, -, xs, hxs, heval⟩ := hsolved id b hb
    refine ⟨xs, hxs, fun x => ?_⟩
    rw [BlockKind.evaluate_current hinput x b₀.value]
    exact heval

theorem Settled.of_rest {m₁ : Model α} (h : Settled m m₁) (hblocks : m'.blocks = m₁.blocks)
    (hsignals : m'.signals = m₁.signals) (hepoch : m'.epoch = m₁.epoch)
    (hsets : m'.breakpoints = m₁.breakpoints) (htables : m'.tables = m₁.tables) : Settled m m' := by
  obtain ⟨name, signals, blocks, sets, tables, inputs, outputs, order, epoch, results⟩ := m'
  cases hblocks
  cases hsignals
  cases hepoch
  cases hsets
  cases htables
  exact ⟨h.current, h.kept, h.solved⟩

theorem Computes.settled (h : m.Computes m') (hm : m.Sound) : Settled m m' := by
  obtain ⟨l, m₁, hl, hperm, rfl⟩ := h.evaluated hm
  exact (hl.settled hperm).of_rest rfl rfl rfl rfl rfl

theorem Computes.sound (h : m.Computes m') (hm : m.Sound) : m'.Sound := by
  rcases h with hrun | ⟨-, hrun⟩
  · exact keeps_cycle.ok hm hrun
  · exact keeps_prepare.ok hm hrun

theorem Computes.bare_eq (h : m.Computes m') (hm : m.Sound) : m'.bare = m.bare := by
  obtain ⟨l, m₁, hl, -, rfl⟩ := h.evaluated hm
  exact hl.bare

theorem Computes.shown (h : m.Computes m') (hm : m.Sound) :
    List.Forall₂ (fun id r => m'.outputRecord? id = some r) m'.outputs m'.results := by
  obtain ⟨l, m₁, hl, hperm, rfl⟩ := h.evaluated hm
  have hharvested := (hl.sound hm.advance).harvested
  exact harvest_shown (m := { m₁ with order := some l }) ⟨hharvested.length, hharvested.labels⟩
    (hl.shown hm.advance hperm)

theorem Computes.outputVector (h : m.Computes m') (hm : m.Sound) : m'.outputVector = m'.results := by
  rw [Model.outputVector, if_pos (h.shown hm).length_eq.symm]

/-- The blocks can be listed so that each one stands behind the blocks it reads. -/
theorem Computes.ordered (h : m.Computes m') (hm : m.Sound) : ∃ l, m'.IsOrder l := by
  have hbare := h.bare_eq hm
  obtain ⟨l, m₁, hl, hperm, rfl⟩ := h.evaluated hm
  refine ⟨l, ?_, ?_⟩
  · rw [blockIds, size_of_bare hbare]
    exact hperm
  · intro pre id post heq p hp
    exact hl.ordered pre id post heq p (hp.of_bare hbare)

end Settled

section Unique

variable {m₀ m n₀ n : Model α}

theorem valueOn?_of_values (hbare : m.bare = n.bare) {s : SignalId}
    (hvalues : ∀ p, m.producer? s = some p →
      (m.block? p).map Block.value = (n.block? p).map Block.value) : m.valueOn? s = n.valueOn? s := by
  rw [valueOn?, valueOn?, ← producer?_of_bare hbare]
  cases hp : m.producer? s with
  | none => rfl
  | some p => exact hvalues p hp

/-- A block whose producers have the same values in two solutions has so itself. -/
theorem Settled.value_eq (hm : Settled m₀ m) (hn : Settled n₀ n) (hbare : m.bare = n.bare)
    (hinputs : ∀ id b c, m₀.block? id = some b → n₀.block? id = some c → b.kind.isInput = true →
      b.value = c.value)
    (hkinds : ∀ id, m.kindOf? id = m₀.kindOf? id) {id : BlockId}
    (hreads : ∀ p, m.Reads id p → (m.block? p).map Block.value = (n.block? p).map Block.value)
    {b : Block α} (hb : m.block? id = some b) : (n.block? id).map Block.value = some b.value := by
  obtain ⟨c, hc, -, hkind, hslots, -⟩ := block_of_bare hbare hb
  rw [hc, Option.map_some]
  congr 1
  cases hinput : b.kind.isInput with
  | true =>
      obtain ⟨b₀, hb₀, hbv⟩ := hm.kept id b hb hinput
      obtain ⟨c₀, hc₀, hcv⟩ := hn.kept id c hc (hkind ▸ hinput)
      have hkind₀ := hkinds id
      rw [kindOf?, hb, kindOf?, hb₀] at hkind₀
      have hinput₀ : b₀.kind.isInput = true := by
        rw [← Option.some.inj hkind₀]
        exact hinput
      rw [hbv, hcv, hinputs id b₀ c₀ hb₀ hc₀ hinput₀]
  | false =>
      obtain ⟨xs, hxs, hbv⟩ := hm.solved id b hb hinput
      obtain ⟨ys, hys, hcv⟩ := hn.solved id c hc (hkind ▸ hinput)
      have hsame : xs = ys := by
        rw [hslots] at hys
        refine List.right_unique_forall₂' ?_ ?_ hys
        · exact fun s x y hx hy => Option.some.inj (hx.symm.trans hy)
        · refine forall₂_imp hxs fun s hs x hx => ?_
          rw [← valueOn?_of_values hbare fun p hp => hreads p ⟨b, s, hb, hs, hp⟩]
          exact hx
      have hbv := hbv b.value
      rw [hsame, breakpoints_of_bare hbare, tables_of_bare hbare, ← hkind, hcv b.value] at hbv
      exact Except.ok.inj hbv

/-- The equations of a graph without loops have one solution for given values of the inputs. The
induction is on the list of blocks, in which what a block reads comes first. -/
theorem Settled.unique (hm : Settled m₀ m) (hn : Settled n₀ n) (hbare : m.bare = n.bare)
    (hinputs : ∀ id b c, m₀.block? id = some b → n₀.block? id = some c → b.kind.isInput = true →
      b.value = c.value)
    (hkinds : ∀ id, m.kindOf? id = m₀.kindOf? id) {l : List BlockId}
    (hordered : ∀ pre id post, l = pre ++ id :: post → ∀ p, m.Reads id p → p ∈ pre) :
    ∀ id ∈ l, (m.block? id).map Block.value = (n.block? id).map Block.value := by
  suffices hprefix : ∀ pre post, l = pre ++ post → ∀ id ∈ pre,
      (m.block? id).map Block.value = (n.block? id).map Block.value from
    hprefix l [] (List.append_nil l).symm
  intro pre
  induction pre using List.reverseRecOn with
  | nil => exact fun post _ id hid => by cases hid
  | append_singleton pre k ih =>
      intro post heq id hid
      rw [List.append_assoc] at heq
      have hold := ih _ heq
      rcases List.mem_append.mp hid with hid | hid
      · exact hold id hid
      · obtain rfl := List.mem_singleton.mp hid
        cases hb : m.block? id with
        | none =>
            cases hc : n.block? id with
            | none => rfl
            | some c =>
                obtain ⟨b, hb', -⟩ := block_of_bare hbare.symm hc
                rw [hb] at hb'
                cases hb'
        | some b =>
            have hreads := fun p hp => hold p (hordered pre id post heq p hp)
            exact (hm.value_eq hn hbare hinputs hkinds hreads hb).symm

end Unique

section Reachable

/-- Two evaluations of one graph at one choice of input values leave the same values. -/
theorem Computes.values_eq {m₁ m₂ n₁ n₂ : Model α} (h₁ : m₁.Sound) (h₂ : m₂.Sound)
    (hbare : m₁.bare = m₂.bare)
    (hinputs : ∀ id b c, m₁.block? id = some b → m₂.block? id = some c → b.kind.isInput = true →
      b.value = c.value) (hrun₁ : m₁.Computes n₁) (hrun₂ : m₂.Computes n₂) (id : BlockId) :
    (n₁.block? id).map Block.value = (n₂.block? id).map Block.value := by
  have hbare₁ := hrun₁.bare_eq h₁
  have hbares : n₁.bare = n₂.bare := by rw [hbare₁, hbare, hrun₂.bare_eq h₂]
  obtain ⟨l, hperm, hordered⟩ := hrun₁.ordered h₁
  by_cases hid : id.index < n₁.blocks.size
  · exact (hrun₁.settled h₁).unique (hrun₂.settled h₂) hbares hinputs (kindOf?_of_bare hbare₁)
      hordered id (hperm.mem_iff.mpr (Handle.mem_all.mpr hid))
  · have hid₂ : ¬ id.index < n₂.blocks.size := by rwa [← size_of_bare hbares]
    rw [block?, block?, Array.getElem?_eq_none (Nat.le_of_not_lt hid),
      Array.getElem?_eq_none (Nat.le_of_not_lt hid₂)]

theorem Computes.results_eq {m₁ m₂ n₁ n₂ : Model α} (h₁ : m₁.Sound) (h₂ : m₂.Sound)
    (hbare : m₁.bare = m₂.bare)
    (hinputs : ∀ id b c, m₁.block? id = some b → m₂.block? id = some c → b.kind.isInput = true →
      b.value = c.value) (hrun₁ : m₁.Computes n₁) (hrun₂ : m₂.Computes n₂) :
    n₁.results = n₂.results := by
  have hbares : n₁.bare = n₂.bare := by rw [hrun₁.bare_eq h₁, hbare, hrun₂.bare_eq h₂]
  have hvalues := Computes.values_eq h₁ h₂ hbare hinputs hrun₁ hrun₂
  have hshown := hrun₂.shown h₂
  rw [← outputs_of_bare hbares] at hshown
  refine List.right_unique_forall₂' ?_ (hrun₁.shown h₁) (forall₂_imp hshown fun id _ r hr => ?_)
  · exact fun id r r' hr hr' => Option.some.inj (hr.symm.trans hr')
  · obtain ⟨c, x, s, hc, hx, hs, rfl⟩ := outputRecord?_eq_some.mp hr
    obtain ⟨b, hb, -, -, hslots, -⟩ := block_of_bare hbares.symm hc
    have hvalue := hvalues id
    rw [hb, hc, Option.map_some, Option.map_some, Option.some.injEq] at hvalue
    exact outputRecord?_eq_some.mpr
      ⟨b, x, s, hb, hslots ▸ hx, by rw [signal?_of_bare hbares]; exact hs, by rw [hvalue]⟩

/-- Evaluation solves the equations of the diagram and has no hidden state: reachable models with
one graph and one choice of input values come out of it with the same values and the same outputs. -/
theorem evaluation_solves_dataflow :
    (∀ m m' : Model α, m.Reachable → m.Computes m' → Settled m m') ∧
    ∀ m₁ m₂ n₁ n₂ : Model α, m₁.Reachable → m₂.Reachable → m₁.bare = m₂.bare →
      (∀ id b c, m₁.block? id = some b → m₂.block? id = some c → b.kind.isInput = true →
        b.value = c.value) →
      m₁.Computes n₁ → m₂.Computes n₂ →
      (∀ id, (n₁.block? id).map Block.value = (n₂.block? id).map Block.value) ∧
        n₁.results = n₂.results ∧ n₁.outputVector = n₂.outputVector := by
  refine ⟨fun m m' hm hrun => hrun.settled hm.sound, ?_⟩
  intro m₁ m₂ n₁ n₂ h₁ h₂ hbare hinputs hrun₁ hrun₂
  have hresults := Computes.results_eq h₁.sound h₂.sound hbare hinputs hrun₁ hrun₂
  refine ⟨Computes.values_eq h₁.sound h₂.sound hbare hinputs hrun₁ hrun₂, hresults, ?_⟩
  rw [hrun₁.outputVector h₁.sound, hrun₂.outputVector h₂.sound, hresults]

/-- An input that is doubled. -/
def double : Draft Float :=
  .after "double"
    [ .signal (Signal.declare "x" "x" ""), .signal (Signal.declare "y" "y" ""),
      .block "sum" .sum, .input ⟨0⟩ 0 (.variable "x"), .input ⟨0⟩ 1 (.signal ⟨0⟩),
      .output ⟨0⟩ (.variable "y") ]

/-- The cycle that finds an order and the one that walks it come out alike. -/
theorem evaluation_solves_double :
    ∃ m n n' : Model Float, double.build = .ok m ∧ cycle.run m = .ok () n ∧ cycle.run n = .ok () n' ∧
      Settled m n ∧ n.outputVector = n'.outputVector := by
  have hruns : double.build.toOption.any (fun m => ((do cycle; cycle : Running Float Unit).run m)
      matches .ok _ _) = true := by decide +kernel
  obtain ⟨m, hm, hrun⟩ := outcome_of_any hruns
  have hreach := Reachable.built (Draft.reachable_after _ _) hm
  split at hrun
  · rename_i u n' hcycles
    obtain ⟨v, n, hn, hn'⟩ := run_bind_ok.mp hcycles
    have hcomputes : m.Computes n := .inl hn
    have hsettled := evaluation_solves_dataflow.1 m n hreach hcomputes
    have hreach' : n.Reachable := by
      have hcall := hreach.call .cycle
      rwa [ModelCall.run, final_of_ok hn] at hcall
    have hkept : ∀ id b c, m.block? id = some b → n.block? id = some c → b.kind.isInput = true →
        b.value = c.value := by
      intro id b c hb hc hinput
      obtain ⟨c', hc', -, hkind, -⟩ := block_of_bare (hcomputes.bare_eq hreach.sound).symm hb
      cases hc.symm.trans hc'
      obtain ⟨b', hb', hvalue⟩ := hsettled.kept id c hc (hkind ▸ hinput)
      cases hb.symm.trans hb'
      exact hvalue.symm
    exact ⟨m, n, n', hm, hn, hn', hsettled, (evaluation_solves_dataflow.2 m n n n' hreach hreach'
      (hcomputes.bare_eq hreach.sound).symm hkept hcomputes (.inl hn')).2.2⟩
  · cases hrun

end Reachable

end Model

end BlockDiagram
