import BlockDiagram.Proofs.Model.Edges
import BlockDiagram.Schedule
import Mathlib.Data.List.Perm.Basic
/-! Evaluation: which values a block is computed from, and what computing blocks one after another
leaves behind. -/

namespace BlockDiagram

open Call

variable {α : Type}

namespace Block

/-- The block without its value. -/
def bare [Arithmetic α] (b : Block α) : Block α :=
  { b with value := b.kind.initialValue, computed := none }

end Block

namespace Model

section Bare

variable [Arithmetic α] {m m' : Model α}

/-- The wired graph of a model: all but values, stamps, the execution order and the records of the
last cycle. -/
def bare (m : Model α) : Model α :=
  { m with blocks := m.blocks.map Block.bare, order := none, epoch := Epoch.zero, results := [] }

theorem bare_block? {id : BlockId} : m.bare.block? id = (m.block? id).map Block.bare := by
  simp only [bare, block?, Array.getElem?_map]

theorem signals_of_bare (h : m.bare = m'.bare) : m.signals = m'.signals :=
  (congrArg Model.signals h :)

theorem breakpoints_of_bare (h : m.bare = m'.bare) : m.breakpoints = m'.breakpoints :=
  (congrArg Model.breakpoints h :)

theorem tables_of_bare (h : m.bare = m'.bare) : m.tables = m'.tables :=
  (congrArg Model.tables h :)

theorem inputs_of_bare (h : m.bare = m'.bare) : m.inputs = m'.inputs :=
  (congrArg Model.inputs h :)

theorem outputs_of_bare (h : m.bare = m'.bare) : m.outputs = m'.outputs :=
  (congrArg Model.outputs h :)

theorem size_of_bare (h : m.bare = m'.bare) : m.blocks.size = m'.blocks.size := by
  have hsize : (m.blocks.map Block.bare).size = (m'.blocks.map Block.bare).size :=
    (congrArg (fun m => m.blocks.size) h :)
  simpa only [Array.size_map] using hsize

theorem signal?_of_bare (h : m.bare = m'.bare) (id : SignalId) : m.signal? id = m'.signal? id := by
  rw [signal?, signals_of_bare h, signal?]

/-- Blocks in one position of equal graphs differ in their values only. -/
theorem block_of_bare (h : m.bare = m'.bare) {id : BlockId} {b : Block α}
    (hb : m.block? id = some b) :
    ∃ b', m'.block? id = some b' ∧ b'.name = b.name ∧ b'.kind = b.kind ∧ b'.inputs = b.inputs ∧
      b'.output = b.output := by
  have hbare : m'.bare.block? id = some b.bare := by rw [← h, bare_block?, hb]; rfl
  rw [bare_block?] at hbare
  obtain ⟨b', hb', heq⟩ := Option.map_eq_some_iff.mp hbare
  exact ⟨b', hb', (congrArg Block.name heq :), (congrArg Block.kind heq :),
    (congrArg Block.inputs heq :), (congrArg Block.output heq :)⟩

theorem kindOf?_of_bare (h : m.bare = m'.bare) (id : BlockId) : m.kindOf? id = m'.kindOf? id := by
  have hone : ∀ m : Model α, m.kindOf? id = m.bare.kindOf? id := by
    intro m
    rw [kindOf?, kindOf?, bare_block?]
    cases m.block? id with
    | none => rfl
    | some b => rfl
  rw [hone m, hone m', h]

theorem EdgesAgree.of_bare (h : m.EdgesAgree) (hbare : m'.bare = m.bare) : m'.EdgesAgree := by
  refine h.congr ?_ ?_ ?_ ?_
  · rw [signals_of_bare hbare]
  · intro id b' hb'
    obtain ⟨b, hb, -, -, hinputs, houtput⟩ := block_of_bare hbare hb'
    exact ⟨b, hb, hinputs.symm, houtput.symm⟩
  · intro id b hb
    obtain ⟨b', hb', -, -, hinputs, houtput⟩ := block_of_bare hbare.symm hb
    exact ⟨b', hb', hinputs, houtput⟩
  · intro id s hs
    rw [signal?_of_bare hbare] at hs
    exact ⟨s, hs, rfl, rfl⟩

theorem Enrolled.of_bare (h : m.Enrolled) (hbare : m'.bare = m.bare) : m'.Enrolled := by
  constructor
  · rw [inputs_of_bare hbare, blockIds, size_of_bare hbare]
    simp only [kindOf?_of_bare hbare]
    exact h.inputs
  · rw [outputs_of_bare hbare, blockIds, size_of_bare hbare]
    simp only [kindOf?_of_bare hbare]
    exact h.outputs

end Bare

/-- The block that produces a signal. -/
def producer? (m : Model α) (id : SignalId) : Option BlockId :=
  (m.signal? id).bind fun s => s.source.map Endpoint.block

/-- The value a signal carries, current or not. -/
def valueOn? (m : Model α) (id : SignalId) : Option α :=
  (m.producer? id).bind fun p => (m.block? p).map Block.value

/-- Block `b` reads a signal that block `p` produces. -/
def Reads (m : Model α) (b p : BlockId) : Prop :=
  ∃ c s, m.block? b = some c ∧ s ∈ c.inputs ∧ m.producer? s = some p

/-- All blocks, each once, and each behind all the blocks whose signals it reads. -/
def IsOrder (m : Model α) (l : List BlockId) : Prop :=
  l.Perm m.blockIds ∧ ∀ pre id post, l = pre ++ id :: post → ∀ p, m.Reads id p → p ∈ pre

/-- The signal carries a value computed in the present epoch. -/
def Carries (m : Model α) (id : SignalId) (x : α) : Prop :=
  ∃ p b, m.producer? id = some p ∧ m.block? p = some b ∧ b.isCurrent m.epoch = true ∧ b.value = x

theorem Reads.of_bare [Arithmetic α] {m m' : Model α} (h : m.bare = m'.bare) {b p : BlockId}
    (hr : m.Reads b p) : m'.Reads b p := by
  obtain ⟨c, s, hc, hs, hp⟩ := hr
  obtain ⟨c', hc', -, -, hinputs, -⟩ := block_of_bare h hc
  refine ⟨c', s, hc', hinputs ▸ hs, ?_⟩
  rw [producer?, ← signal?_of_bare h]
  exact hp

theorem producer?_of_bare [Arithmetic α] {m m' : Model α} (h : m.bare = m'.bare) (id : SignalId) :
    m.producer? id = m'.producer? id := by
  rw [producer?, signal?_of_bare h, producer?]

section Inputs

variable {m : Model α}

theorem producer?_eq_some {id : SignalId} {p : BlockId} :
    m.producer? id = some p ↔ ∃ s e, m.signal? id = some s ∧ s.source = some e ∧ e.block = p := by
  rw [producer?, Option.bind_eq_some_iff]
  constructor
  · rintro ⟨s, hs, hp⟩
    obtain ⟨e, he, hep⟩ := Option.map_eq_some_iff.mp hp
    exact ⟨s, e, hs, he, hep⟩
  · rintro ⟨s, e, hs, he, hep⟩
    exact ⟨s, hs, Option.map_eq_some_iff.mpr ⟨e, he, hep⟩⟩

theorem inputValues_some {ids : List SignalId} {xs : List α} :
    m.inputValues ids = .ok (some xs) ↔ List.Forall₂ m.Carries ids xs := by
  induction ids generalizing xs with
  | nil =>
      rw [inputValues, List.forall₂_nil_left_iff]
      constructor
      · intro h
        cases h
        rfl
      · rintro rfl
        rfl
  | cons id ids ih =>
      rw [inputValues, outcome_bind_ok, List.forall₂_cons_left_iff]
      constructor
      · rintro ⟨s, hs, h⟩
        rw [entry_eq_ok] at hs
        split at h
        · cases h
        · rename_i e he
          obtain ⟨b, hb, h⟩ := outcome_bind_ok.mp h
          rw [entry_eq_ok] at hb
          split at h
          · obtain ⟨r, hr, h⟩ := outcome_bind_ok.mp h
            cases r with
            | none => cases h
            | some ys =>
                cases h
                exact ⟨b.value, ys, ⟨e.block, b, producer?_eq_some.mpr ⟨s, e, hs, he, rfl⟩, hb,
                  ‹_›, rfl⟩, ih.mp hr, rfl⟩
          · cases h
      · rintro ⟨x, ys, ⟨p, b, hp, hb, hcurrent, rfl⟩, hys, rfl⟩
        obtain ⟨s, e, hs, he, rfl⟩ := producer?_eq_some.mp hp
        refine ⟨s, entry_eq_ok.mpr hs, ?_⟩
        rw [he]
        refine outcome_bind_ok.mpr ⟨b, entry_eq_ok.mpr hb, ?_⟩
        rw [if_pos hcurrent, ih.mpr hys]
        rfl

/-- A stale input has a producer that has not run. -/
theorem inputValues_none {ids : List SignalId} (h : m.inputValues ids = .ok none) :
    ∃ id ∈ ids, ∃ p b, m.producer? id = some p ∧ m.block? p = some b ∧
      b.isCurrent m.epoch = false := by
  induction ids with
  | nil => cases h
  | cons id ids ih =>
      obtain ⟨s, hs, h⟩ := outcome_bind_ok.mp h
      rw [entry_eq_ok] at hs
      split at h
      · cases h
      · rename_i e he
        obtain ⟨b, hb, h⟩ := outcome_bind_ok.mp h
        rw [entry_eq_ok] at hb
        split at h
        · obtain ⟨r, hr, h⟩ := outcome_bind_ok.mp h
          cases r with
          | none =>
              obtain ⟨j, hj, hstale⟩ := ih hr
              exact ⟨j, List.mem_cons_of_mem id hj, hstale⟩
          | some ys => cases h
        · rename_i hstale
          exact ⟨id, List.mem_cons_self, e.block, b, producer?_eq_some.mpr ⟨s, e, hs, he, rfl⟩, hb,
            by simpa using hstale⟩

theorem inputValues_error {ids : List SignalId} {e : ModelError α} (h : m.inputValues ids = .error e) :
    (∃ v, e = .violation (.noProducer v)) ∨ ∃ i n, e = .outOfBounds i n := by
  induction ids with
  | nil => cases h
  | cons id ids ih =>
      rcases outcome_bind_error.mp h with hentry | ⟨s, -, h⟩
      · exact .inr (entry_error hentry)
      · split at h
        · cases h
          exact .inl ⟨_, rfl⟩
        · rcases outcome_bind_error.mp h with hentry | ⟨b, -, h⟩
          · exact .inr (entry_error hentry)
          · split at h
            · rcases outcome_bind_error.mp h with hrest | ⟨r, -, h⟩
              · exact ih hrest
              · cases h
            · cases h

/-- Reading fails only on a signal without a producer. -/
theorem inputValues_total {ids : List SignalId}
    (hids : ∀ id ∈ ids, ∃ p b, m.producer? id = some p ∧ m.block? p = some b) :
    ∃ r, m.inputValues ids = .ok r := by
  induction ids with
  | nil => exact ⟨_, rfl⟩
  | cons id ids ih =>
      obtain ⟨p, b, hp, hb⟩ := hids id List.mem_cons_self
      obtain ⟨s, e, hs, he, rfl⟩ := producer?_eq_some.mp hp
      obtain ⟨r, hr⟩ := ih fun j hj => hids j (List.mem_cons_of_mem id hj)
      rw [inputValues, entry_eq_ok.mpr hs, outcome_ok_bind, he]
      dsimp only
      rw [entry_eq_ok.mpr hb, outcome_ok_bind]
      split
      · rw [hr]
        exact ⟨_, rfl⟩
      · exact ⟨_, rfl⟩

end Inputs

section Refresh

variable [Scalar α] {m m' : Model α} {id : BlockId} {b : Block α}

/-- The input count of the block suits its kind. -/
def Fits (m : Model α) (b : Block α) : Prop :=
  (b.kind.arity m.tables).accepts b.inputs.length = true

instance (m : Model α) (b : Block α) : Decidable (m.Fits b) :=
  inferInstanceAs (Decidable (_ = true))

theorem nextValue_of_not_fits (h : ¬ m.Fits b) :
    m.nextValue b =
      .error (.arity b.name b.kind.tag (b.kind.arity m.tables) b.inputs.length) := by
  have hmisfit : (b.kind.arity m.tables).accepts b.inputs.length = false := by simpa [Fits] using h
  simp only [nextValue, hmisfit, Bool.not_false, ↓reduceIte]
  rfl

theorem nextValue_of_fits (h : m.Fits b) :
    m.nextValue b = (do
      match ← m.inputValues b.inputs with
      | none => return none
      | some xs => return some (← b.kind.evaluate m.breakpoints m.tables b.value xs)) := by
  have hfits : (b.kind.arity m.tables).accepts b.inputs.length = true := h
  rw [nextValue, hfits]
  rfl

theorem fits_of_nextValue {r : Option α} (h : m.nextValue b = .ok r) : m.Fits b := by
  by_contra hmisfit
  rw [nextValue_of_not_fits hmisfit] at h
  cases h

theorem nextValue_some {v : α} :
    m.nextValue b = .ok (some v) ↔ m.Fits b ∧ ∃ xs, List.Forall₂ m.Carries b.inputs xs ∧
      b.kind.evaluate m.breakpoints m.tables b.value xs = .ok v := by
  constructor
  · intro h
    have hfits := fits_of_nextValue h
    rw [nextValue_of_fits hfits] at h
    obtain ⟨r, hr, h⟩ := outcome_bind_ok.mp h
    cases r with
    | none => cases h
    | some xs =>
        obtain ⟨w, hw, h⟩ := outcome_bind_ok.mp h
        cases h
        exact ⟨hfits, xs, inputValues_some.mp hr, hw⟩
  · rintro ⟨hfits, xs, hxs, hv⟩
    rw [nextValue_of_fits hfits, inputValues_some.mpr hxs, outcome_ok_bind]
    dsimp only
    rw [hv]
    rfl

theorem nextValue_none (h : m.nextValue b = .ok none) : m.inputValues b.inputs = .ok none := by
  rw [nextValue_of_fits (fits_of_nextValue h)] at h
  obtain ⟨r, hr, h⟩ := outcome_bind_ok.mp h
  cases r with
  | none => exact hr
  | some xs =>
      obtain ⟨w, -, h⟩ := outcome_bind_ok.mp h
      cases h

/-- The model with a value computed for a block in the present epoch. -/
def refreshed (m : Model α) (id : BlockId) (b : Block α) (value : α) : Model α :=
  { m with
    blocks := m.blocks.setIfInBounds id.index { b with value, computed := some m.epoch } }

theorem refresh_run (hb : m.block? id = some b) :
    (refresh id).run m =
      match m.nextValue b with
      | .error e => .error e m
      | .ok none => .ok false m
      | .ok (some value) => .ok true (m.refreshed id b value) := by
  have hentry : (entry m.blocks id.index : Except (ModelError α) (Block α)) = .ok b :=
    entry_eq_ok.mpr hb
  simp only [refresh, EStateM.run_bind, EStateM.run_get, run_lift, hentry]
  cases m.nextValue b with
  | error e => rfl
  | ok r =>
      cases r with
      | none => rfl
      | some value => rfl

/-- A successful refresh found the block, and either left the model as it was or computed the
block. -/
theorem refresh_ok {done : Bool} (h : (refresh id).run m = .ok done m') :
    ∃ b, m.block? id = some b ∧
      ((done = false ∧ m' = m ∧ m.nextValue b = .ok none) ∨
        ∃ value, done = true ∧ m' = m.refreshed id b value ∧ m.nextValue b = .ok (some value)) := by
  cases hb : m.block? id with
  | none =>
      have hentry : (entry m.blocks id.index : Except (ModelError α) (Block α)) =
          .error (.outOfBounds id.index m.blocks.size) := by
        rw [entry, show m.blocks[id.index]? = none from hb]
      simp only [refresh, EStateM.run_bind, EStateM.run_get, run_lift, hentry] at h
      cases h
  | some b =>
      rw [refresh_run hb] at h
      refine ⟨b, rfl, ?_⟩
      cases hv : m.nextValue b with
      | error e => rw [hv] at h; cases h
      | ok r =>
          rw [hv] at h
          cases r with
          | none => cases h; exact .inl ⟨rfl, rfl, rfl⟩
          | some value => cases h; exact .inr ⟨value, rfl, rfl, rfl⟩

theorem refresh_error {e : ModelError α} (h : (refresh id).run m = .error e m') :
    m' = m ∧ ∀ b, m.block? id = some b → m.nextValue b = .error e := by
  cases hb : m.block? id with
  | none =>
      have hentry : (entry m.blocks id.index : Except (ModelError α) (Block α)) =
          .error (.outOfBounds id.index m.blocks.size) := by
        rw [entry, show m.blocks[id.index]? = none from hb]
      simp only [refresh, EStateM.run_bind, EStateM.run_get, run_lift, hentry] at h
      cases h
      exact ⟨rfl, fun b hb => by cases hb⟩
  | some b =>
      rw [refresh_run hb] at h
      cases hv : m.nextValue b with
      | error e' =>
          rw [hv] at h
          cases h
          exact ⟨rfl, fun c hc => by cases hc; exact hv⟩
      | ok r =>
          rw [hv] at h
          cases r with
          | none => cases h
          | some value => cases h

omit [Scalar α] in
theorem refreshed_block? (hb : m.block? id = some b) {value : α} {j : BlockId} :
    (m.refreshed id b value).block? j =
      if j = id then some { b with value, computed := some m.epoch } else m.block? j := by
  rw [refreshed, block?, Array.getElem?_setIfInBounds]
  by_cases hj : j = id
  · rw [if_pos hj, hj, if_pos rfl, if_pos (block?_lt hb)]
  · rw [if_neg hj, if_neg fun h => hj (Handle.eq_mk h.symm)]
    rfl

theorem refreshed_bare (hb : m.block? id = some b) {value : α} :
    (m.refreshed id b value).bare = m.bare := by
  have hblocks : (m.blocks.setIfInBounds id.index
      { b with value, computed := some m.epoch }).map Block.bare = m.blocks.map Block.bare := by
    apply Array.ext_getElem?
    intro i
    rw [Array.getElem?_map, Array.getElem?_map, Array.getElem?_setIfInBounds]
    split
    · rename_i hi
      rw [if_pos (block?_lt hb), ← hi, show m.blocks[id.index]? = some b from hb]
      rfl
    · rfl
  simp only [bare, refreshed, hblocks]

end Refresh

/-- In a list where what a member depends on comes before it, it has the smaller position. -/
theorem idxOf_lt_of_ordered {l : List BlockId} {R : BlockId → BlockId → Prop} (hnodup : l.Nodup)
    (hordered : ∀ pre id post, l = pre ++ id :: post → ∀ p, R id p → p ∈ pre) {id p : BlockId}
    (hid : id ∈ l) (hr : R id p) : p ∈ l ∧ l.idxOf p < l.idxOf id := by
  obtain ⟨pre, post, rfl⟩ := List.append_of_mem hid
  have hp := hordered pre id post rfl p hr
  have hnot : id ∉ pre := by
    intro hin
    exact (List.nodup_append.mp hnodup).2.2 id hin id List.mem_cons_self rfl
  refine ⟨List.mem_append_left _ hp, ?_⟩
  rw [List.idxOf_append_of_mem hp, List.idxOf_append_of_notMem hnot]
  exact Nat.lt_of_lt_of_le (List.idxOf_lt_length_iff.mpr hp) (Nat.le_add_right _ _)

theorem IsOrder.idxOf_lt {m : Model α} {l : List BlockId} (h : m.IsOrder l) {id p : BlockId}
    (hr : m.Reads id p) : l.idxOf p < l.idxOf id := by
  have hid : id ∈ l := by
    obtain ⟨c, s, hc, -⟩ := hr
    exact h.1.mem_iff.mpr (Handle.mem_all.mpr (block?_lt hc))
  have hnodup : l.Nodup := h.1.nodup_iff.mpr (Handle.nodup_all _)
  exact (idxOf_lt_of_ordered hnodup h.2 hid hr).2

section Evaluated

variable [Scalar α]

/-- The blocks `done` have been computed one after the other, starting from the model `m₀`, each
after the blocks it reads. -/
structure Evaluated (m₀ : Model α) (done : List BlockId) (m : Model α) : Prop where
  rest : m = { m₀ with blocks := m.blocks }
  bare : m.bare = m₀.bare
  nodup : done.Nodup
  current : ∀ id b, m.block? id = some b → (b.isCurrent m₀.epoch = true ↔ id ∈ done)
  untouched : ∀ id, id ∉ done → m.block? id = m₀.block? id
  solved : ∀ id ∈ done, ∃ b b₀, m.block? id = some b ∧ m₀.block? id = some b₀ ∧ m₀.Fits b ∧
    ∃ xs, List.Forall₂ (fun s x => m.valueOn? s = some x) b.inputs xs ∧
      b.kind.evaluate m₀.breakpoints m₀.tables b₀.value xs = .ok b.value
  ordered : ∀ l id r, done = l ++ id :: r → ∀ p, m₀.Reads id p → p ∈ l

namespace Evaluated

variable {m₀ m m' : Model α} {done : List BlockId}

theorem epoch (h : Evaluated m₀ done m) : m.epoch = m₀.epoch := by rw [h.rest]

theorem breakpoints (h : Evaluated m₀ done m) : m.breakpoints = m₀.breakpoints := by rw [h.rest]

theorem tables (h : Evaluated m₀ done m) : m.tables = m₀.tables := by rw [h.rest]

theorem fits_iff (h : Evaluated m₀ done m) {b : Block α} : m.Fits b ↔ m₀.Fits b := by
  rw [Fits, h.tables, Fits]

theorem start (h : ∀ id b, m₀.block? id = some b → b.isCurrent m₀.epoch = false) :
    Evaluated m₀ [] m₀ where
  rest := rfl
  bare := rfl
  nodup := List.nodup_nil
  current := by
    intro id b hb
    rw [h id b hb]
    simp
  untouched := fun _ _ => rfl
  solved := fun id hid => by cases hid
  ordered := by
    intro l id r hnil
    simp at hnil

theorem reads_done (h : Evaluated m₀ done m) {id p : BlockId} (hid : id ∈ done)
    (hr : m₀.Reads id p) : p ∈ done := by
  obtain ⟨l, r, rfl⟩ := List.append_of_mem hid
  exact List.mem_append_left _ (h.ordered l id r rfl p hr)

omit [Scalar α] in
theorem valueOn?_step {id : BlockId} {b : Block α} {value : α} (hb : m.block? id = some b)
    {s : SignalId} (hs : m.producer? s ≠ some id) :
    (m.refreshed id b value).valueOn? s = m.valueOn? s := by
  have hproducer : (m.refreshed id b value).producer? s = m.producer? s := rfl
  rw [valueOn?, valueOn?, hproducer]
  cases hp : m.producer? s with
  | none => rfl
  | some p =>
      have hne : p ≠ id := fun heq => hs (heq ▸ hp)
      rw [Option.bind_some, Option.bind_some, refreshed_block? hb, if_neg hne]

omit [Scalar α] in
theorem valueOn?_of_carries {s : SignalId} {x : α} (h : m.Carries s x) : m.valueOn? s = some x := by
  obtain ⟨p, b, hp, hb, -, rfl⟩ := h
  rw [valueOn?, hp, Option.bind_some, hb]
  rfl

theorem step (h : Evaluated m₀ done m) {id : BlockId} (hid : id ∉ done)
    (hrun : (refresh id).run m = .ok true m') : Evaluated m₀ (done ++ [id]) m' := by
  obtain ⟨b, hb, ⟨hfalse, -⟩ | ⟨value, -, rfl, hvalue⟩⟩ := refresh_ok hrun
  · cases hfalse
  obtain ⟨hfits, xs, hxs, heval⟩ := nextValue_some.mp hvalue
  have hread : ∀ p, m₀.Reads id p → p ∈ done := by
    intro p hp
    obtain ⟨c, s, hc, hs, hsp⟩ := hp.of_bare h.bare.symm
    cases hb.symm.trans hc
    obtain ⟨x, -, q, d, hq, hd, hcurrent, -⟩ := forall₂_exists hxs s hs
    cases hq.symm.trans hsp
    rw [h.epoch] at hcurrent
    exact (h.current _ d hd).mp hcurrent
  have hfree : ∀ {j : BlockId} {c : Block α} {s : SignalId}, m.block? j = some c → s ∈ c.inputs →
      (∀ p, m₀.Reads j p → p ∈ done) → m.producer? s ≠ some id := by
    intro j c s hc hs hreads hp
    exact hid (hreads id (Reads.of_bare h.bare ⟨c, s, hc, hs, hp⟩))
  constructor
  · exact congrArg (fun n : Model α => { n with blocks := (m.refreshed id b value).blocks }) h.rest
  · rw [refreshed_bare hb, h.bare]
  · exact List.nodup_append.mpr ⟨h.nodup, List.nodup_singleton id, by
      rintro x hx y hy rfl
      exact hid (List.mem_singleton.mp hy ▸ hx)⟩
  · intro j c hc
    rw [refreshed_block? hb] at hc
    rw [List.mem_append, List.mem_singleton]
    by_cases hj : j = id
    · rw [if_pos hj] at hc
      cases hc
      simp [Block.isCurrent, h.epoch, hj]
    · rw [if_neg hj] at hc
      rw [h.current j c hc]
      simp [hj]
  · intro j hj
    rw [List.mem_append, List.mem_singleton, not_or] at hj
    rw [refreshed_block? hb, if_neg hj.2]
    exact h.untouched j hj.1
  · intro j hj
    rcases List.mem_append.mp hj with hold | hnew
    · obtain ⟨c, c₀, hc, hc₀, hcfits, ys, hys, hceval⟩ := h.solved j hold
      have hne : j ≠ id := fun heq => hid (heq ▸ hold)
      refine ⟨c, c₀, by rw [refreshed_block? hb, if_neg hne]; exact hc, hc₀, hcfits, ys, ?_, hceval⟩
      refine forall₂_imp hys fun s hs x hx => ?_
      rw [valueOn?_step hb (hfree hc hs fun p hp => h.reads_done hold hp)]
      exact hx
    · obtain rfl := List.mem_singleton.mp hnew
      have hb₀ : m₀.block? j = some b := by rw [← h.untouched j hid]; exact hb
      refine ⟨{ b with value, computed := some m.epoch }, b,
        by rw [refreshed_block? hb, if_pos rfl], hb₀, h.fits_iff.mp hfits, xs, ?_, ?_⟩
      · refine forall₂_imp hxs fun s hs x hx => ?_
        rw [valueOn?_step hb (hfree hb hs hread)]
        exact valueOn?_of_carries hx
      · rw [← h.breakpoints, ← h.tables]
        exact heval
  · intro l j r heq p hp
    rcases List.eq_nil_or_concat r with rfl | ⟨r, x, rfl⟩
    · obtain ⟨rfl, hlast⟩ := List.append_inj' heq rfl
      cases hlast
      exact hread p hp
    · rw [List.concat_eq_append, ← List.cons_append, ← List.append_assoc] at heq
      exact h.ordered l j r (List.append_inj' heq rfl).1 p hp

end Evaluated

end Evaluated

end Model

end BlockDiagram
