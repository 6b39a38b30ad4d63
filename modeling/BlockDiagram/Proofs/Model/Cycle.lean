import BlockDiagram.Proofs.Model.Sound
/-! Cycles: what a successful evaluation of the whole model leaves behind, whether it finds an order
or walks the one it has. -/

namespace BlockDiagram

open Call

variable {α : Type}

namespace Model

section Harvest

variable {m : Model α}

theorem shown_eq_of_label {s : Signal α} {r : Record α} {x : α}
    (h : (s.shown x).label = r.label) (value : α) : { r with value } = s.shown value := by
  obtain ⟨name, varId, units, v, lower, upper⟩ := r
  simp only [Record.label, Signal.shown, Prod.mk.injEq] at h ⊢
  obtain ⟨rfl, rfl, rfl, rfl, rfl⟩ := h
  rfl

theorem forall₂_harvest {ids : List BlockId} {rs : List (Record α)}
    (h : List.Forall₂ (fun id r => ∃ r', m.outputRecord? id = some r' ∧ r'.label = r.label) ids rs) :
    List.Forall₂ (fun id r => m.outputRecord? id = some r) ids
      ((rs.zip ids).map fun (r, id) => { r with value := (m.block? id).elim r.value Block.value }) := by
  induction h with
  | nil => exact .nil
  | @cons id r ids rs hr _ ih =>
      obtain ⟨r', hr', hlabel⟩ := hr
      refine .cons ?_ ih
      obtain ⟨b, x, s, hb, hx, hs, rfl⟩ := outputRecord?_eq_some.mp hr'
      dsimp only
      rw [hr', hb, Option.elim_some, shown_eq_of_label hlabel]

theorem forall₂_filterMap {ids : List BlockId} (h : ∀ id ∈ ids, ∃ r, m.outputRecord? id = some r) :
    List.Forall₂ (fun id r => m.outputRecord? id = some r) ids (ids.filterMap m.outputRecord?) := by
  induction ids with
  | nil => exact .nil
  | cons id ids ih =>
      obtain ⟨r, hr⟩ := h id List.mem_cons_self
      rw [List.filterMap_cons_some hr]
      exact .cons hr (ih fun j hj => h j (List.mem_cons_of_mem id hj))

/-- The harvest shows every output with its present value. -/
theorem harvest_shown (h : m.Harvested) (hshown : ∀ id ∈ m.outputs, ∃ r, m.outputRecord? id = some r) :
    List.Forall₂ (fun id r => m.outputRecord? id = some r) m.outputs m.harvest.results := by
  refine forall₂_harvest ?_
  rw [outputVector]
  split
  · rename_i hlength
    refine List.forall₂_iff_get.mpr ⟨hlength.symm, fun i hi hi' => ?_⟩
    exact h.labels i _ _ (List.getElem?_eq_getElem hi') (List.getElem?_eq_getElem hi)
  · exact (forall₂_filterMap hshown).imp fun id r hr => ⟨r, hr, rfl⟩

theorem Harvested.of_shown
    (h : List.Forall₂ (fun id r => m.outputRecord? id = some r) m.outputs m.harvest.results) :
    m.harvest.Harvested := by
  constructor
  · exact Nat.le_of_eq h.length_eq.symm
  · intro i r id hr hid
    obtain ⟨hi, rfl⟩ := List.getElem?_eq_some_iff.mp hid
    obtain ⟨hi', rfl⟩ := List.getElem?_eq_some_iff.mp hr
    exact ⟨_, (List.forall₂_iff_get.mp h).2 i hi hi', rfl⟩

end Harvest

variable [Scalar α] {m₀ m m' : Model α} {done l : List BlockId}

namespace Evaluated

/-- Computing blocks keeps a model sound. -/
theorem sound (h : Evaluated m₀ done m) (hm₀ : m₀.Sound) : m.Sound := by
  refine hm₀.of_bare h.bare ?_ ?_ ?_
  · intro id b e hb he
    rw [h.epoch]
    by_cases hid : id ∈ done
    · have hcurrent := (h.current id b hb).mpr hid
      rw [Block.isCurrent, beq_iff_eq, he] at hcurrent
      cases hcurrent
      exact Nat.le_refl _
    · rw [h.untouched id hid] at hb
      exact hm₀.stamps id b e hb he
  · rw [h.rest]
    exact hm₀.order
  · rw [h.rest]

theorem shown (h : Evaluated m₀ done m) (hm₀ : m₀.Sound) (hall : done.Perm m₀.blockIds) :
    ∀ id ∈ m.outputs, ∃ r, m.outputRecord? id = some r := by
  intro id hid
  have hm := h.sound hm₀
  rw [hm.enrolled.outputs, List.mem_filter, blockIds, Handle.mem_all, size_of_bare h.bare] at hid
  obtain ⟨b, b₀, hb, -, hfits, -⟩ := h.solved id (hall.mem_iff.mpr (Handle.mem_all.mpr hid.1))
  have hkind : b.kind.isOutput = true := by
    have hkind := hid.2
    rw [kindOf?, hb] at hkind
    exact hkind
  have hone : b.inputs.length = 1 := by
    cases hk : b.kind with
    | output =>
        rw [Fits, hk] at hfits
        simpa [BlockKind.arity, Arity.accepts] using hfits
    | _ => rw [hk] at hkind; cases hkind
  obtain ⟨x, hx⟩ := List.length_eq_one_iff.mp hone
  obtain ⟨s, hs⟩ := exists_signal (hm.edges.inputs id b hb x (by rw [hx]; exact List.mem_cons_self))
  exact ⟨_, outputRecord?_eq_some.mpr ⟨b, x, s, hb, by rw [hx]; rfl, hs, rfl⟩⟩

end Evaluated

theorem Sound.advance (h : m.Sound) : m.advance.Sound := by
  refine h.of_bare rfl ?_ h.order rfl
  intro id b e hb he
  exact Nat.le_succ_of_le (h.stamps id b e hb he)

theorem Sound.evaluated_start (h : m.Sound) : Evaluated m.advance [] m.advance := by
  refine .start fun id b hb => ?_
  rw [Block.isCurrent, beq_eq_false_iff_ne]
  intro heq
  have hle := h.stamps id b m.advance.epoch hb heq
  exact Nat.not_succ_le_self _ hle

theorem schedule_run (m : Model α) :
    schedule.run m =
      match (schedulePending m.blockIds []).run m with
      | .error e m₁ => .error e m₁
      | .ok l m₁ => .ok () { m₁ with order := some l } := by
  simp only [schedule, EStateM.run_bind, EStateM.run_get]
  cases (schedulePending m.blockIds []).run m with
  | error e m₁ => rfl
  | ok l m₁ => rfl

theorem prepare_run_of_some (h : m.order.isSome = true) : prepare.run m = .ok () m := by
  simp only [prepare, EStateM.run_bind, EStateM.run_get, h, ↓reduceIte]
  rfl

theorem prepare_run_of_none (h : m.order = none) :
    prepare.run m =
      match schedule.run m.advance with
      | .error e m₁ => .error e m₁
      | .ok () m₁ => .ok () m₁.harvest := by
  simp only [prepare, EStateM.run_bind, EStateM.run_get, h, Option.isSome_none, Bool.false_eq_true,
    ↓reduceIte, EStateM.run_modify]
  cases schedule.run m.advance with
  | error e m₁ => rfl
  | ok u m₁ => rfl

theorem cycle_run_of_none (h : m.order = none) :
    cycle.run m =
      match schedule.run m.advance with
      | .error e m₁ => .error e m₁
      | .ok () m₁ => .ok () m₁.harvest := by
  have horder : m.advance.order = none := h
  simp only [cycle, EStateM.run_bind, EStateM.run_modify, EStateM.run_get, horder]
  cases schedule.run m.advance with
  | error e m₁ => rfl
  | ok u m₁ => rfl

theorem cycle_run_of_some (h : m.order = some l) :
    cycle.run m =
      match (runOrder l).run m.advance with
      | .error e m₁ => .error e m₁
      | .ok () m₁ => .ok () m₁.harvest := by
  have horder : m.advance.order = some l := h
  simp only [cycle, EStateM.run_bind, EStateM.run_modify, EStateM.run_get, horder]
  cases (runOrder l).run m.advance with
  | error e m₁ => rfl
  | ok u m₁ => rfl

/-- A cycle that has no order to walk does what preparing the model does. -/
theorem cycle_run_eq_prepare (h : m.order = none) : cycle.run m = prepare.run m := by
  rw [cycle_run_of_none h, prepare_run_of_none h]

theorem schedule_ok (h : Evaluated m₀ [] m₀) (hrun : schedule.run m₀ = .ok () m') :
    ∃ l m, Evaluated m₀ l m ∧ l.Perm m₀.blockIds ∧ m' = { m with order := some l } := by
  rw [schedule_run] at hrun
  cases hpending : (schedulePending m₀.blockIds []).run m₀ with
  | error e m₁ => rw [hpending] at hrun; cases hrun
  | ok l m₁ =>
      rw [hpending] at hrun
      cases hrun
      obtain ⟨hl, hperm, -⟩ := h.schedulePending_ok (Handle.nodup_all _)
        (fun id _ => List.not_mem_nil) hpending
      exact ⟨l, m₁, hl, hperm, rfl⟩

theorem schedule_error {e : ModelError α}
    (hrun : schedule.run m₀ = .error e m') : (schedulePending m₀.blockIds []).run m₀ = .error e m' := by
  rw [schedule_run] at hrun
  cases hpending : (schedulePending m₀.blockIds []).run m₀ with
  | error e m₁ => rw [hpending] at hrun; cases hrun; rfl
  | ok l m₁ => rw [hpending] at hrun; cases hrun

theorem prepare_ok (h : m.Sound) (hnone : m.order = none) (hrun : prepare.run m = .ok () m') :
    ∃ l m₁, Evaluated m.advance l m₁ ∧ l.Perm m.blockIds ∧
      m' = ({ m₁ with order := some l } : Model α).harvest := by
  rw [prepare_run_of_none hnone] at hrun
  cases hschedule : schedule.run m.advance with
  | error e m₁ => rw [hschedule] at hrun; cases hrun
  | ok u m₁ =>
      rw [hschedule] at hrun
      cases hrun
      obtain ⟨l, m₂, hl, hperm, rfl⟩ := schedule_ok h.evaluated_start hschedule
      exact ⟨l, m₂, hl, hperm, rfl⟩

/-- Both kinds of cycle compute every block once, each after the blocks it reads. -/
theorem cycle_ok (h : m.Sound) (hrun : cycle.run m = .ok () m') :
    ∃ l m₁, Evaluated m.advance l m₁ ∧ l.Perm m.blockIds ∧
      m' = ({ m₁ with order := some l } : Model α).harvest := by
  cases horder : m.order with
  | none =>
      rw [cycle_run_eq_prepare horder] at hrun
      exact prepare_ok h horder hrun
  | some l =>
      rw [cycle_run_of_some horder] at hrun
      cases hwalk : (runOrder l).run m.advance with
      | error e m₁ => rw [hwalk] at hrun; cases hrun
      | ok u m₁ =>
          rw [hwalk] at hrun
          cases hrun
          have hperm := h.order l horder
          have hl := h.evaluated_start.runOrder_ok
            (hperm.nodup_iff.mpr (Handle.nodup_all _)) (fun id _ => List.not_mem_nil) hwalk
          have hsame : m₁.order = some l := by rw [hl.rest]; exact horder
          refine ⟨l, m₁, hl, hperm, ?_⟩
          rw [← hsame]

theorem prepare_error {e : ModelError α} (hrun : prepare.run m = .error e m') :
    m.order = none ∧ (schedulePending m.blockIds []).run m.advance = .error e m' := by
  cases horder : m.order with
  | some l =>
      rw [prepare_run_of_some (by rw [horder]; rfl)] at hrun
      cases hrun
  | none =>
      rw [prepare_run_of_none horder] at hrun
      cases hschedule : schedule.run m.advance with
      | error e m₁ =>
          rw [hschedule] at hrun
          cases hrun
          exact ⟨rfl, schedule_error hschedule⟩
      | ok u m₁ => rw [hschedule] at hrun; cases hrun

/-- A failing search for an order has computed some of the blocks. -/
theorem prepare_error_evaluated {e : ModelError α} (h : m.Sound)
    (hrun : prepare.run m = .error e m') : ∃ done, Evaluated m.advance done m' := by
  obtain ⟨-, hpending⟩ := prepare_error hrun
  rcases h.evaluated_start.schedulePending_error (Handle.nodup_all _)
    (fun id _ => List.not_mem_nil) (fun id hid => Handle.mem_all.mp hid) hpending with
    ⟨order, horder, -⟩ | ⟨id, b, done, hdone, -⟩
  · exact ⟨order, horder⟩
  · exact ⟨done, hdone⟩

theorem cycle_error_evaluated {e : ModelError α} (h : m.Sound) (hrun : cycle.run m = .error e m') :
    ∃ done, Evaluated m.advance done m' := by
  cases horder : m.order with
  | none =>
      rw [cycle_run_eq_prepare horder] at hrun
      exact prepare_error_evaluated h hrun
  | some l =>
      rw [cycle_run_of_some horder] at hrun
      cases hwalk : (runOrder l).run m.advance with
      | ok u m₁ => rw [hwalk] at hrun; cases hrun
      | error e m₁ =>
          rw [hwalk] at hrun
          cases hrun
          exact h.evaluated_start.runOrder_error ((h.order l horder).nodup_iff.mpr
            (Handle.nodup_all _)) (fun id _ => List.not_mem_nil) hwalk

/-- The order found may be kept, and the outputs be shown. -/
theorem Evaluated.harvest_sound (h : Evaluated m.advance l m₀) (hm : m.Sound)
    (hperm : l.Perm m.blockIds) : ({ m₀ with order := some l } : Model α).harvest.Sound := by
  have hm₀ := h.sound hm.advance
  have hsize : m₀.blockIds = m.blockIds := by
    rw [blockIds, size_of_bare h.bare]
    rfl
  have hordered : ({ m₀ with order := some l } : Model α).Sound := by
    refine hm₀.of_bare rfl hm₀.stamps ?_ rfl
    rintro l' ⟨⟩
    rw [hsize]
    exact hperm
  have hshown := harvest_shown hordered.harvested (h.shown hm.advance hperm)
  exact {
    edges := hordered.edges.of_bare rfl
    enrolled := hordered.enrolled.of_bare rfl
    grids := hordered.grids
    kinds := hordered.kinds
    stamps := hordered.stamps
    order := hordered.order
    harvested := .of_shown hshown }

theorem keeps_cycle : Keeps Sound (cycle : Running α Unit) := by
  refine keeps_of_run ?_ ?_
  · intro m u m' hm hrun
    obtain ⟨l, m₁, hl, hperm, rfl⟩ := cycle_ok hm hrun
    exact hl.harvest_sound hm hperm
  · intro m e m' hm hrun
    obtain ⟨done, hdone⟩ := cycle_error_evaluated hm hrun
    exact hdone.sound hm.advance

theorem keeps_prepare : Keeps Sound (prepare : Running α Unit) := by
  intro m hm
  cases horder : m.order with
  | some l =>
      rw [final_of_ok (prepare_run_of_some (by rw [horder]; rfl))]
      exact hm
  | none =>
      have hfinal : final prepare m = final cycle m := by
        rw [final, final, cycle_run_eq_prepare horder]
      rw [hfinal]
      exact keeps_cycle m hm

end Model

end BlockDiagram
