import BlockDiagram.Proofs.Draft.Reachable
import BlockDiagram.Proofs.Model.Cycle
/-! Reachable models: what wiring a draft and calling the result can lead to, failed calls included.
All of them are sound. -/

namespace BlockDiagram

open Call

variable {α : Type} [Scalar α]

/-- The calls that change a model, with any arguments. -/
inductive ModelCall (α : Type) where
  | complete
  | setInput (key : String) (value : α)
  | loadInputs (records : List (Record α))
  | prepare
  | cycle

namespace ModelCall

def run : ModelCall α → Running α Unit
  | complete => Model.complete
  | setInput key value => Model.setInput key value
  | loadInputs records => Model.loadInputs records
  | prepare => Model.prepare
  | cycle => Model.cycle

end ModelCall

namespace Draft

theorem Wired.block? {d : Draft α} {done : List (DraftBlock α)} {m : Model α} (h : d.Wired done m)
    {id : BlockId} {b : Block α} (hb : m.block? id = some b) :
    ∃ b₀, done[id.index]? = some b₀ ∧ d.Resolved b₀ b := by
  have hlt := Model.block?_lt hb
  rw [h.size] at hlt
  have hb₀ := List.getElem?_eq_getElem hlt
  obtain ⟨b', hb', hres⟩ := h.blocks id.index _ hb₀
  cases hb.symm.trans hb'
  exact ⟨_, hb₀, hres⟩

theorem Wired.sound {d : Draft α} (hd : d.Sound) {m : Model α} (h : d.Wired d.blocks.toList m) :
    m.Sound := by
  obtain ⟨hsets, htables, horder, -, hresults⟩ := h.fresh
  constructor
  · exact h.edges
  · exact h.enrolled
  · rw [hsets, htables, h.size, Array.length_toList]
    exact hd.grids
  · intro id b hb
    obtain ⟨b₀, hb₀, hres⟩ := h.block? hb
    rw [Array.getElem?_toList] at hb₀
    rw [hsets, htables, hres.kind]
    exact hd.kinds id.index b₀ hb₀
  · intro id b e hb he
    obtain ⟨b₀, -, hres⟩ := h.block? hb
    rw [hres.computed] at he
    cases he
  · intro l hl
    rw [horder] at hl
    cases hl
  · constructor
    · rw [hresults]
      exact Nat.zero_le _
    · intro i r id hr
      rw [hresults] at hr
      cases hr

end Draft

namespace Model

omit [Scalar α] in
theorem setInput_run (key : String) (value : α) (m : Model α) :
    (setInput key value).run m =
      match m.inputBlock? key with
      | none => .error (.unknownInput key) m
      | some id => .ok () { m with
          blocks := m.blocks.modify id.index fun b => { b with value } } := by
  simp only [setInput, EStateM.run_bind, EStateM.run_get]
  cases m.inputBlock? key with
  | none => rfl
  | some id => rfl

omit [Scalar α] in
/-- The value of a block is no part of the graph. -/
theorem set_value_bare [Arithmetic α] (m : Model α) (i : Nat) (value : α) :
    ({ m with blocks := m.blocks.modify i fun b => { b with value } } : Model α).bare = m.bare := by
  have hblocks : (m.blocks.modify i fun b => { b with value }).map Block.bare =
      m.blocks.map Block.bare := by
    apply Array.ext_getElem?
    intro j
    rw [Array.getElem?_map, Array.getElem?_map, Array.getElem?_modify]
    split
    · cases m.blocks[j]? with
      | none => rfl
      | some b => rfl
    · rfl
  simp only [bare, hblocks]

theorem Sound.set_value {m : Model α} (h : m.Sound) (i : Nat) (value : α) :
    ({ m with blocks := m.blocks.modify i fun b => { b with value } } : Model α).Sound := by
  refine h.of_bare (m.set_value_bare i value) ?_ h.order rfl
  intro id b e hb he
  have hb' : (m.blocks.modify i fun b => { b with value })[id.index]? = some b := hb
  rw [Array.getElem?_modify] at hb'
  split at hb'
  · obtain ⟨b₀, hb₀, rfl⟩ := Option.map_eq_some_iff.mp hb'
    exact h.stamps id b₀ e hb₀ he
  · exact h.stamps id b e hb' he

section Assignment

variable {P : Model α → Prop}
  (hset : ∀ (m : Model α) (i : Nat) (value : α), P m →
    P { m with blocks := m.blocks.modify i fun b => { b with value } })

include hset

omit [Scalar α] in
/-- What new values of blocks do not harm, assigning to an input does not. -/
theorem keeps_setInput (key : String) (value : α) : Keeps P (setInput key value) := by
  intro m hm
  unfold final
  rw [setInput_run]
  cases m.inputBlock? key with
  | none => exact hm
  | some id => exact hset m id.index value hm

omit [Scalar α] in
theorem keeps_loadInputs (records : List (Record α)) : Keeps P (loadInputs records) := by
  induction records with
  | nil => exact keeps_pure ()
  | cons r records ih => exact keeps_bind (keeps_setInput hset r.varId r.value) fun _ => ih

end Assignment

theorem keeps_complete : Keeps Sound (complete : Running α Unit) := by
  intro m hm
  obtain ⟨m', hrun, hext, -⟩ := complete_run hm.edges
  rw [final_of_ok hrun]
  exact extends_keeps (fun _ _ hstep => hstep.sound) hext hm

end Model

theorem ModelCall.keeps_sound (c : ModelCall α) : Keeps Model.Sound c.run := by
  cases c with
  | complete => exact Model.keeps_complete
  | setInput key value => exact Model.keeps_setInput (fun _ i x h => h.set_value i x) key value
  | loadInputs records => exact Model.keeps_loadInputs (fun _ i x h => h.set_value i x) records
  | prepare => exact Model.keeps_prepare
  | cycle => exact Model.keeps_cycle

theorem Draft.build_ok {d : Draft α} (hd : d.Sound) {m : Model α} (h : d.build = .ok m) :
    ∃ m₀, d.wire = .ok m₀ ∧ d.Wired d.blocks.toList m₀ ∧ Model.complete.run m₀ = .ok () m ∧
      Relation.ReflTransGen Model.Extends m₀ m ∧ m.Complete := by
  obtain ⟨m₀, hm₀, h⟩ := outcome_bind_ok.mp h
  have hwired := wire_ok hd hm₀
  obtain ⟨m', hrun, hext, hcomplete⟩ := Model.complete_run hwired.edges
  rw [hrun] at h
  cases h
  exact ⟨m₀, hm₀, hwired, hrun, hext, hcomplete⟩

theorem Draft.build_of_wire {d : Draft α} (hd : d.Sound) {m₀ : Model α} (h : d.wire = .ok m₀) :
    ∃ m, d.build = .ok m := by
  obtain ⟨m, hrun, -⟩ := Model.complete_run (wire_ok hd h).edges
  refine ⟨m, outcome_bind_ok.mpr ⟨m₀, h, ?_⟩⟩
  rw [hrun]
  rfl

namespace Model

/-- The models that wiring a reachable draft and calling the result lead to. -/
inductive Reachable : Model α → Prop
  | wired {d : Draft α} {m : Model α} : d.Reachable → d.wire = .ok m → Reachable m
  | call {m : Model α} (c : ModelCall α) : Reachable m → Reachable (final c.run m)

theorem Reachable.sound {m : Model α} (h : m.Reachable) : m.Sound := by
  induction h with
  | wired hd hm => exact (Draft.wire_ok hd.sound hm).sound hd.sound
  | call c _ ih => exact c.keeps_sound _ ih

theorem Reachable.built {d : Draft α} (hd : d.Reachable) {m : Model α} (h : d.build = .ok m) :
    m.Reachable := by
  obtain ⟨m₀, hm₀, -, hrun, -⟩ := Draft.build_ok hd.sound h
  have hcall := Reachable.call .complete (Reachable.wired hd hm₀)
  rwa [ModelCall.run, final_of_ok hrun] at hcall

end Model

end BlockDiagram
