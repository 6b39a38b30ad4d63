import BlockDiagram.Defect
import BlockDiagram.Proofs.Model.Reachable
import BlockDiagram.Scalar.Double
/-! Agreement: in every reachable model both ends of each edge tell the same, all handles are in
range, and looking for defects finds no disagreement between a signal and a block. -/

namespace BlockDiagram

open Call

namespace Model

variable {α : Type} {m : Model α}

/-- A slot of a block is bound to the signal. -/
def Binds (m : Model α) (b : BlockId) (slot : Nat) (s : SignalId) : Prop :=
  ∃ c, m.block? b = some c ∧ c.inputs[slot]? = some s

/-- The signal is the output of the block. -/
def Outputs (m : Model α) (b : BlockId) (s : SignalId) : Prop :=
  ∃ c, m.block? b = some c ∧ c.output = some s

/-- Every handle the model stores is a position in its arena. -/
structure HandlesInRange (m : Model α) : Prop where
  slots : ∀ b c, m.block? b = some c → ∀ s ∈ c.inputs, s.index < m.signals.size
  produced : ∀ b c, m.block? b = some c → ∀ s, c.output = some s → s.index < m.signals.size
  sources : ∀ s x, m.signal? s = some x → ∀ e, x.source = some e → e.block.index < m.blocks.size
  sinks : ∀ s x, m.signal? s = some x → ∀ e ∈ x.sinks, e.block.index < m.blocks.size
  kinds : ∀ b c, m.block? b = some c → c.kind.InRange m.breakpoints.size m.tables.size
  inputs : ∀ b ∈ m.inputs, b.index < m.blocks.size
  outputs : ∀ b ∈ m.outputs, b.index < m.blocks.size
  order : ∀ l, m.order = some l → ∀ b ∈ l, b.index < m.blocks.size
  setUsers : ∀ s ∈ m.breakpoints, ∀ b ∈ s.users, b.index < m.blocks.size
  tableUsers : ∀ t ∈ m.tables, ∀ b ∈ t.users, b.index < m.blocks.size
  axes : ∀ t ∈ m.tables, ∀ a ∈ t.axes, a.set.index < m.breakpoints.size

theorem Sound.handlesInRange (h : m.Sound) : m.HandlesInRange where
  slots := h.edges.inputs
  produced := h.edges.outputs
  sources := by
    intro s x hx e he
    obtain ⟨-, c, hc, -⟩ := (h.edges.source s x hx e).mp he
    exact block?_lt hc
  sinks := by
    intro s x hx e he
    obtain ⟨c, hc, -⟩ := (h.edges.sinks s x hx e).mp he
    exact block?_lt hc
  kinds := h.kinds
  inputs := by
    intro b hb
    rw [h.enrolled.inputs] at hb
    exact Handle.mem_all.mp (List.mem_of_mem_filter hb)
  outputs := by
    intro b hb
    rw [h.enrolled.outputs] at hb
    exact Handle.mem_all.mp (List.mem_of_mem_filter hb)
  order := by
    intro l hl b hb
    exact Handle.mem_all.mp ((h.order l hl).mem_iff.mp hb)
  setUsers := by
    intro s hs b hb
    obtain ⟨i, hi⟩ := Array.mem_iff_getElem?.mp hs
    exact h.grids.setUsers i s hi b hb
  tableUsers := by
    intro t ht b hb
    obtain ⟨i, hi⟩ := Array.mem_iff_getElem?.mp ht
    exact h.grids.tableUsers i t hi b hb
  axes := by
    intro t ht a ha
    obtain ⟨i, hi⟩ := Array.mem_iff_getElem?.mp ht
    obtain ⟨s, hs, -⟩ := h.grids.axes i t hi a ha
    exact (Array.getElem?_eq_some_iff.mp hs).1

/-- What is wrong with the input count of a block. -/
def misfits (m : Model α) (b : Block α) : List Defect :=
  if m.Fits b then [] else [.arity b.name (b.kind.arity m.tables) b.inputs.length]

theorem misfits_eq_nil {b : Block α} : m.misfits b = [] ↔ m.Fits b := by
  by_cases hfits : m.Fits b <;> simp [misfits, hfits]

theorem eq_of_mem_misfits {b : Block α} {x : Defect} (hx : x ∈ m.misfits b) :
    x = .arity b.name (b.kind.arity m.tables) b.inputs.length := by
  rw [misfits] at hx
  split at hx
  · cases hx
  · exact List.mem_singleton.mp hx

namespace EdgesAgree

theorem sourceDefects_eq (h : m.EdgesAgree) {id : SignalId} {s : Signal α}
    (hs : m.signal? id = some s) {x : Defect} (hx : x ∈ m.sourceDefects id s) :
    x = .noSource s.varId := by
  unfold sourceDefects at hx
  split at hx
  · exact List.mem_singleton.mp hx
  · rename_i e he
    obtain ⟨-, b, hb, hout⟩ := (h.source id s hs e).mp he
    rw [hb, Option.any_some, hout, beq_self_eq_true, if_pos rfl] at hx
    cases hx

theorem sinkDefects_eq_nil (h : m.EdgesAgree) {id : SignalId} {s : Signal α}
    (hs : m.signal? id = some s) : m.sinkDefects id s = [] := by
  refine List.filterMap_eq_nil_iff.mpr fun e he => ?_
  obtain ⟨b, hb, hin⟩ := (h.sinks id s hs e).mp he
  rw [hb, Option.any_some, hin, beq_self_eq_true, if_pos rfl]

theorem blockDefects_eq (h : m.EdgesAgree) {id : BlockId} {b : Block α} (hb : m.block? id = some b) :
    m.blockDefects id b = m.misfits b := by
  have hlisted : (b.inputs.zipIdx.filterMap fun p =>
      if (m.signal? p.1).any fun x => x.sinks.contains ⟨id, p.2⟩ then none
      else some (Defect.unlistedSink b.name p.2)) = [] := by
    rw [List.filterMap_eq_nil_iff]
    rintro ⟨s, slot⟩ hslot
    obtain ⟨x, hx, hin⟩ := h.read hb (List.mk_mem_zipIdx_iff_getElem?.mp hslot)
    dsimp only
    rw [hx, Option.any_some, List.contains_iff_mem.mpr hin, if_pos rfl]
  rw [blockDefects, hlisted, List.nil_append]
  rfl

/-- The only defects there can be are open ends and input counts. -/
theorem defects_open_or_arity (h : m.EdgesAgree) {x : Defect} (hx : x ∈ m.defects) :
    (∃ v, x = .noSource v) ∨ (∃ v, x = .noSink v) ∨ ∃ b a n, x = .arity b a n := by
  rcases List.mem_append.mp hx with hsignal | hblock
  · obtain ⟨⟨s, i⟩, hi, hx⟩ := List.mem_flatMap.mp hsignal
    have hs : m.signal? ⟨i⟩ = some s := by
      rw [signal?, ← Array.getElem?_toList]
      exact List.mk_mem_zipIdx_iff_getElem?.mp hi
    dsimp only at hx
    rw [signalDefects, h.sinkDefects_eq_nil hs, List.append_nil] at hx
    rcases List.mem_append.mp hx with hsource | hsink
    · exact .inl ⟨_, h.sourceDefects_eq hs hsource⟩
    · split at hsink
      · exact .inr (.inl ⟨_, List.mem_singleton.mp hsink⟩)
      · cases hsink
  · obtain ⟨⟨b, i⟩, hi, hx⟩ := List.mem_flatMap.mp hblock
    have hb : m.block? ⟨i⟩ = some b := by
      rw [block?, ← Array.getElem?_toList]
      exact List.mk_mem_zipIdx_iff_getElem?.mp hi
    dsimp only at hx
    rw [h.blockDefects_eq hb] at hx
    exact .inr (.inr ⟨_, _, _, eq_of_mem_misfits hx⟩)

end EdgesAgree

variable [Scalar α]

/-- Both sides of every edge agree in every reachable model. -/
theorem Reachable.edges_agree (h : m.Reachable) :
    (∀ s x, m.signal? s = some x →
      (∀ b p, (m.Binds b p s ↔ ⟨b, p⟩ ∈ x.sinks) ∧
        (⟨b, p⟩ ∈ x.sinks → x.sinks.count ⟨b, p⟩ = 1)) ∧
      ∀ e, x.source = some e ↔ e.slot = 0 ∧ m.Outputs e.block s) ∧
    (∀ a b s, m.Outputs a s → m.Outputs b s → a = b) ∧
    m.HandlesInRange ∧
    ∀ x ∈ m.defects,
      (∃ v, x = .noSource v) ∨ (∃ v, x = .noSink v) ∨ ∃ b a n, x = .arity b a n := by
  have hm := h.sound
  refine ⟨?_, ?_, hm.handlesInRange, fun x hx => hm.edges.defects_open_or_arity hx⟩
  · intro s x hx
    refine ⟨fun b p => ⟨(hm.edges.sinks s x hx ⟨b, p⟩).symm, fun hin => ?_⟩, hm.edges.source s x hx⟩
    exact List.count_eq_one_of_mem (hm.edges.nodup s x hx) hin
  · rintro a b s ⟨c, hc, hcs⟩ ⟨d, hd, hds⟩
    exact hm.edges.output_unique hc hd hcs hds

/-- A block that reads one signal, which has limits, on both of its slots. -/
def square : Draft Float :=
  .after "square"
    [ .signal ((Signal.declare "x" "x" "").withLimits (some 0) (some 1)),
      .block "product" .product, .input ⟨0⟩ 1 (.variable "x"), .input ⟨0⟩ 0 (.variable "x"),
      .signal (Signal.declare "y" "y" ""), .output ⟨0⟩ (.variable "y") ]

theorem edges_agree_square :
    ∃ m, square.build = .ok m ∧ m.blocks.size = 4 ∧ (final cycle.run m).HandlesInRange := by
  have hbuild : square.build.toOption.any (fun m => m.blocks.size == 4) = true := by decide +kernel
  obtain ⟨m, hm, hsize⟩ := outcome_of_any hbuild
  have hmodel := (Reachable.built (Draft.reachable_after _ _) hm).call .cycle
  exact ⟨m, hm, beq_iff_eq.mp hsize, hmodel.edges_agree.2.2.1⟩

end Model

end BlockDiagram
