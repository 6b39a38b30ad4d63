import BlockDiagram.Proofs.Model.Evaluation
/-! Passes: what trying pending blocks again and again computes, and what it leaves when it stops.
-/

namespace BlockDiagram

open Call

namespace Model

variable {α : Type} [Scalar α]

namespace Evaluated

variable {m₀ m m' : Model α} {done pending : List BlockId}

theorem block_of_done (h : Evaluated m₀ done m) {id : BlockId} (hid : id ∈ done) :
    ∃ b, m.block? id = some b := by
  obtain ⟨b, -, hb, -⟩ := h.solved id hid
  exact ⟨b, hb⟩

theorem isReady_iff (h : Evaluated m₀ done m) (id : BlockId) : m.isReady id = true ↔ id ∈ done := by
  rw [isReady, h.epoch, Option.any_eq_true]
  constructor
  · rintro ⟨b, hb, hcurrent⟩
    exact (h.current id b hb).mp hcurrent
  · intro hid
    obtain ⟨b, hb⟩ := h.block_of_done hid
    exact ⟨b, hb, (h.current id b hb).mpr hid⟩

theorem isReady_eq_false (h : Evaluated m₀ done m) (id : BlockId) :
    m.isReady id = false ↔ id ∉ done := by
  rw [← h.isReady_iff, Bool.not_eq_true]

/-- A block that could not be computed waits for one that has not been. -/
theorem waits (h : Evaluated m₀ done m) {id : BlockId} {b : Block α} (hb : m.block? id = some b)
    (hvalue : m.nextValue b = .ok none) : ∃ p, m₀.Reads id p ∧ p ∉ done := by
  obtain ⟨s, hs, p, c, hp, hc, hstale⟩ := inputValues_none (nextValue_none hvalue)
  refine ⟨p, Reads.of_bare h.bare ⟨b, s, hb, hs, hp⟩, ?_⟩
  rw [← h.current p c hc, ← h.epoch, hstale]
  exact Bool.false_ne_true

theorem block_of_pending (h : Evaluated m₀ done m) {id : BlockId} {b : Block α} (hid : id ∉ done)
    (hb : m.block? id = some b) : m₀.block? id = some b := by
  rw [← h.untouched id hid]
  exact hb

/-- A pass that ends well has computed some of the blocks it tried, in their order. All of them fit,
and each of the others waits for a block that had not been computed before. -/
theorem pass (h : Evaluated m₀ done m) (hnodup : pending.Nodup) (hfree : ∀ id ∈ pending, id ∉ done)
    (hrun : (runPass pending).run m = .ok () m') :
    Evaluated m₀ (done ++ pending.filter m'.isReady) m' ∧
      (∀ id ∈ pending, ∃ b, m₀.block? id = some b ∧ m₀.Fits b) ∧
      ∀ id ∈ pending, m'.isReady id = false → ∃ p, m₀.Reads id p ∧ p ∉ done := by
  induction pending generalizing done m with
  | nil =>
      cases hrun
      refine ⟨?_, fun id hid => (by cases hid), fun id hid => (by cases hid)⟩
      rwa [List.filter_nil, List.append_nil]
  | cons id rest ih =>
      obtain ⟨r, m₁, hrefresh, hrest⟩ := run_bind_ok.mp hrun
      obtain ⟨hidrest, hrestnodup⟩ := List.nodup_cons.mp hnodup
      have hid := hfree id List.mem_cons_self
      obtain ⟨b, hb, hcase⟩ := refresh_ok hrefresh
      have hb₀ := h.block_of_pending hid hb
      have hfits : m₀.Fits b := by
        rcases hcase with ⟨-, -, hvalue⟩ | ⟨value, -, -, hvalue⟩
        · exact h.fits_iff.mp (fits_of_nextValue hvalue)
        · exact h.fits_iff.mp (fits_of_nextValue hvalue)
      rcases hcase with ⟨-, rfl, hvalue⟩ | ⟨value, rfl, -, -⟩
      · obtain ⟨hpass, hallfit, hwait⟩ := ih h hrestnodup
          (fun j hj => hfree j (List.mem_cons_of_mem id hj)) hrest
        have hstale : m'.isReady id = false := by
          rw [hpass.isReady_eq_false, List.mem_append, not_or]
          exact ⟨hid, fun hin => hidrest (List.mem_of_mem_filter hin)⟩
        refine ⟨?_, ?_, ?_⟩
        · rw [List.filter_cons_of_neg (by rw [hstale]; exact Bool.false_ne_true)]
          exact hpass
        · intro j hj
          rcases List.mem_cons.mp hj with rfl | hj
          · exact ⟨b, hb₀, hfits⟩
          · exact hallfit j hj
        · intro j hj hready
          rcases List.mem_cons.mp hj with rfl | hj
          · exact h.waits hb hvalue
          · exact hwait j hj hready
      · have hstep := h.step hid hrefresh
        have hrestfree : ∀ j ∈ rest, j ∉ done ++ [id] := by
          intro j hj
          rw [List.mem_append, List.mem_singleton, not_or]
          exact ⟨hfree j (List.mem_cons_of_mem id hj), fun heq => hidrest (heq ▸ hj)⟩
        obtain ⟨hpass, hallfit, hwait⟩ := ih hstep hrestnodup hrestfree hrest
        have hready : m'.isReady id = true := by
          rw [hpass.isReady_iff]
          exact List.mem_append_left _ (List.mem_append_right _ List.mem_cons_self)
        refine ⟨?_, ?_, ?_⟩
        · rw [List.filter_cons_of_pos hready, List.append_cons]
          exact hpass
        · intro j hj
          rcases List.mem_cons.mp hj with rfl | hj
          · exact ⟨b, hb₀, hfits⟩
          · exact hallfit j hj
        · intro j hj hstale
          rcases List.mem_cons.mp hj with rfl | hj
          · rw [hready] at hstale
            cases hstale
          · obtain ⟨p, hp, hnot⟩ := hwait j hj hstale
            exact ⟨p, hp, fun hin => hnot (List.mem_append_left _ hin)⟩

/-- A pass fails on the first block whose value cannot be told. The blocks tried before it fit. -/
theorem pass_error (h : Evaluated m₀ done m) (hnodup : pending.Nodup)
    (hfree : ∀ id ∈ pending, id ∉ done) (hrange : ∀ id ∈ pending, id.index < m₀.blocks.size)
    {e : ModelError α} (hrun : (runPass pending).run m = .error e m') :
    ∃ pre id post b done', pending = pre ++ id :: post ∧
      (∀ j ∈ pre, ∃ c, m₀.block? j = some c ∧ m₀.Fits c) ∧ Evaluated m₀ done' m' ∧
      m₀.block? id = some b ∧ m'.nextValue b = .error e := by
  induction pending generalizing done m with
  | nil => cases hrun
  | cons id rest ih =>
      obtain ⟨hidrest, hrestnodup⟩ := List.nodup_cons.mp hnodup
      have hid := hfree id List.mem_cons_self
      rcases run_bind_error.mp hrun with hrefresh | ⟨r, m₁, hrefresh, hrest⟩
      · obtain ⟨rfl, hvalue⟩ := refresh_error hrefresh
        obtain ⟨b, hb⟩ := exists_block (hrange id List.mem_cons_self)
        refine ⟨[], id, rest, b, done, rfl, fun j hj => (by cases hj), h, hb, ?_⟩
        exact hvalue b (by rw [h.untouched id hid]; exact hb)
      · obtain ⟨b, hb, hcase⟩ := refresh_ok hrefresh
        have hb₀ := h.block_of_pending hid hb
        obtain ⟨hfits, done₁, h₁, hrestfree⟩ : m₀.Fits b ∧ ∃ done₁, Evaluated m₀ done₁ m₁ ∧
            ∀ j ∈ rest, j ∉ done₁ := by
          rcases hcase with ⟨-, rfl, hvalue⟩ | ⟨value, rfl, -, hvalue⟩
          · exact ⟨h.fits_iff.mp (fits_of_nextValue hvalue), done, h,
              fun j hj => hfree j (List.mem_cons_of_mem id hj)⟩
          · refine ⟨h.fits_iff.mp (fits_of_nextValue hvalue), _, h.step hid hrefresh, ?_⟩
            intro j hj
            rw [List.mem_append, List.mem_singleton, not_or]
            exact ⟨hfree j (List.mem_cons_of_mem id hj), fun heq => hidrest (heq ▸ hj)⟩
        obtain ⟨pre, k, post, c, done', rfl, hpre, hdone', hc, hvalue⟩ :=
          ih h₁ hrestnodup hrestfree (fun j hj => hrange j (List.mem_cons_of_mem id hj)) hrest
        refine ⟨id :: pre, k, post, c, done', rfl, ?_, hdone', hc, hvalue⟩
        intro j hj
        rcases List.mem_cons.mp hj with rfl | hj
        · exact ⟨b, hb₀, hfits⟩
        · exact hpre j hj

end Evaluated

theorem schedulePending_run (pending order : List BlockId) (m : Model α) :
    (schedulePending pending order).run m =
      if pending.isEmpty then .ok order m
      else
        match (runPass pending).run m with
        | .error e m₁ => .error e m₁
        | .ok () m₁ =>
          if (pending.filter fun id => !m₁.isReady id).length < pending.length then
            (schedulePending (pending.filter fun id => !m₁.isReady id)
              (order ++ pending.filter m₁.isReady)).run m₁
          else .error (.loop ((pending.filter fun id => !m₁.isReady id).map m₁.nameOf)) m₁ := by
  rw [schedulePending]
  split
  · rfl
  · rw [EStateM.run_bind]
    cases (runPass pending).run m with
    | error e m₁ => rfl
    | ok u m₁ =>
        simp only [EStateM.run_bind, EStateM.run_get, List.partition_eq_filter_filter]
        simp only [Function.comp_def]
        split
        · rfl
        · rfl

namespace Evaluated

variable {m₀ m m' : Model α} {pending order l : List BlockId}

theorem stuck_eq (h : Evaluated m₀ order m) :
    (pending.filter fun id => !m.isReady id) = pending.filter fun id => id ∉ order := by
  refine List.filter_congr fun id _ => ?_
  have hready := h.isReady_iff id
  cases hr : m.isReady id with
  | true => simp [hready.mp hr]
  | false =>
      have := (h.isReady_eq_false id).mp hr
      simp [this]

theorem stuck_free (h : Evaluated m₀ order m) {id : BlockId}
    (hid : id ∈ pending.filter fun id => !m.isReady id) : id ∉ order := by
  rw [h.stuck_eq] at hid
  simpa using List.of_mem_filter hid

theorem schedulePending_ok (h : Evaluated m₀ order m) (hnodup : pending.Nodup)
    (hfree : ∀ id ∈ pending, id ∉ order)
    (hrun : (schedulePending pending order).run m = .ok l m') :
    Evaluated m₀ l m' ∧ l.Perm (order ++ pending) ∧
      ∀ id ∈ pending, ∃ b, m₀.block? id = some b ∧ m₀.Fits b := by
  induction hlen : pending.length using Nat.strongRecOn generalizing pending order m with
  | ind n ih =>
      rw [schedulePending_run] at hrun
      split at hrun
      · rename_i hempty
        obtain rfl := List.isEmpty_iff.mp hempty
        cases hrun
        refine ⟨h, by rw [List.append_nil], fun id hid => (by cases hid)⟩
      · cases hpass : (runPass pending).run m with
        | error e m₁ => rw [hpass] at hrun; cases hrun
        | ok u m₁ =>
            rw [hpass] at hrun
            obtain ⟨hstep, hfits, -⟩ := h.pass hnodup hfree hpass
            dsimp only at hrun
            split at hrun
            · rename_i hlt
              obtain ⟨hl, hperm, -⟩ := ih _ (hlen ▸ hlt) hstep (hnodup.filter _)
                (fun id hid => hstep.stuck_free hid) hrun rfl
              refine ⟨hl, hperm.trans ?_, hfits⟩
              rw [List.append_assoc]
              exact (List.filter_append_perm m₁.isReady pending).append_left order
            · cases hrun

/-- A round after which as many blocks are pending as before has computed nothing. -/
theorem no_progress (h : Evaluated m₀ (order ++ pending.filter m.isReady) m)
    (hlen : pending.length ≤ (pending.filter fun id => !m.isReady id).length) :
    (∀ id ∈ pending, m.isReady id = false) ∧ Evaluated m₀ order m := by
  have hstale : ∀ id ∈ pending, m.isReady id = false := by
    intro id hid
    have hall := List.length_filter_eq_length_iff.mp
      (Nat.le_antisymm (List.length_filter_le _ _) hlen) id hid
    simpa using hall
  have hnone : pending.filter m.isReady = [] :=
    List.filter_eq_nil_iff.mpr fun id hid => by simp [hstale id hid]
  rw [hnone, List.append_nil] at h
  exact ⟨hstale, h⟩

/-- Scheduling fails on a block whose value cannot be told, or where every pending block waits for
a pending one. In the first case the block fits, or it is the first that does not. -/
theorem schedulePending_error (h : Evaluated m₀ order m) (hnodup : pending.Nodup)
    (hfree : ∀ id ∈ pending, id ∉ order) (hrange : ∀ id ∈ pending, id.index < m₀.blocks.size)
    {e : ModelError α} (hrun : (schedulePending pending order).run m = .error e m') :
    (∃ order', Evaluated m₀ order' m' ∧ order ⊆ order' ∧
      e = .loop ((pending.filter fun id => id ∉ order').map m'.nameOf) ∧
      (pending.filter fun id => id ∉ order') ≠ [] ∧
      (∀ id ∈ pending, id ∉ order' → ∃ p, m₀.Reads id p ∧ p ∉ order') ∧
      ∀ id ∈ pending, ∃ b, m₀.block? id = some b ∧ m₀.Fits b) ∨
    ∃ id b done', Evaluated m₀ done' m' ∧ m₀.block? id = some b ∧ m'.nextValue b = .error e ∧
      (m₀.Fits b ∨ ∃ pre post, pending = pre ++ id :: post ∧
        ∀ j ∈ pre, ∃ c, m₀.block? j = some c ∧ m₀.Fits c) := by
  induction hlen : pending.length using Nat.strongRecOn generalizing pending order m with
  | ind n ih =>
      rw [schedulePending_run] at hrun
      split at hrun
      · cases hrun
      · rename_i hsome
        cases hpass : (runPass pending).run m with
        | error e m₁ =>
            rw [hpass] at hrun
            cases hrun
            obtain ⟨pre, id, post, b, done', hsplit, hpre, hdone', hb, hvalue⟩ :=
              h.pass_error hnodup hfree hrange hpass
            exact .inr ⟨id, b, done', hdone', hb, hvalue, .inr ⟨pre, post, hsplit, hpre⟩⟩
        | ok u m₁ =>
            rw [hpass] at hrun
            obtain ⟨hstep, hfits, hwait⟩ := h.pass hnodup hfree hpass
            dsimp only at hrun
            split at hrun
            · rename_i hlt
              have hsub : ∀ id ∈ pending.filter fun id => !m₁.isReady id, id ∈ pending :=
                fun id hid => List.mem_of_mem_filter hid
              rcases ih _ (hlen ▸ hlt) hstep (hnodup.filter _) (fun id hid => hstep.stuck_free hid)
                (fun id hid => hrange id (hsub id hid)) hrun rfl with
                ⟨order', horder', hincl, he, hne, hwait', -⟩ | ⟨id, b, done', hdone', hb, hvalue, hfit⟩
              · left
                have hsame : ((pending.filter fun id => !m₁.isReady id).filter
                    fun id => id ∉ order') = pending.filter fun id => id ∉ order' := by
                  rw [hstep.stuck_eq, List.filter_filter]
                  refine List.filter_congr fun id _ => ?_
                  by_cases hid : id ∈ order'
                  · simp [hid]
                  · have hnot : id ∉ order ++ pending.filter m₁.isReady := fun hin =>
                      hid (hincl hin)
                    simp only [hid, hnot, not_false_eq_true, decide_true, Bool.and_true]
                rw [hsame] at he hne
                refine ⟨order', horder', fun x hx => hincl (List.mem_append_left _ hx), he, hne, ?_,
                  hfits⟩
                intro id hid hnot
                refine hwait' id (List.mem_filter.mpr ⟨hid, ?_⟩) hnot
                rw [Bool.not_eq_true', hstep.isReady_eq_false]
                exact fun hin => hnot (hincl hin)
              · refine .inr ⟨id, b, done', hdone', hb, hvalue, .inl ?_⟩
                rcases hfit with hfit | ⟨pre, post, hsplit, -⟩
                · exact hfit
                · obtain ⟨c, hc, hcfits⟩ := hfits id (hsub id (by rw [hsplit]; simp))
                  cases hb.symm.trans hc
                  exact hcfits
            · rename_i hstuck
              left
              cases hrun
              obtain ⟨hstale, hsame⟩ := hstep.no_progress (Nat.le_of_not_lt hstuck)
              have hwhole : (pending.filter fun id => id ∉ order) = pending :=
                List.filter_eq_self.mpr fun id hid => by simp [hfree id hid]
              refine ⟨order, hsame, List.Subset.refl order, ?_, ?_, ?_, hfits⟩
              · rw [hsame.stuck_eq]
              · rw [hwhole]
                simpa using hsome
              · exact fun id hid _ => hwait id hid (hstale id hid)

/-- A walk along an order that ends well computes every block of it. -/
theorem runOrder_ok {ids : List BlockId} (h : Evaluated m₀ order m) (hnodup : ids.Nodup)
    (hfree : ∀ id ∈ ids, id ∉ order) (hrun : (runOrder ids).run m = .ok () m') :
    Evaluated m₀ (order ++ ids) m' := by
  induction ids generalizing order m with
  | nil =>
      cases hrun
      rwa [List.append_nil]
  | cons id ids ih =>
      obtain ⟨u, m₁, hblock, hrest⟩ := run_bind_ok.mp hrun
      obtain ⟨r, m₂, hrefresh, hblock⟩ := run_bind_ok.mp hblock
      obtain ⟨hidrest, hrestnodup⟩ := List.nodup_cons.mp hnodup
      cases r with
      | false => cases hblock
      | true =>
          cases hblock
          rw [List.append_cons]
          refine ih (h.step (hfree id List.mem_cons_self) hrefresh) hrestnodup ?_ hrest
          intro j hj
          rw [List.mem_append, List.mem_singleton, not_or]
          exact ⟨hfree j (List.mem_cons_of_mem id hj), fun heq => hidrest (heq ▸ hj)⟩

/-- A walk ends badly where a value cannot be told, or where an input is stale. The blocks before that
one have been computed. -/
theorem runOrder_error_at {ids : List BlockId} (h : Evaluated m₀ order m) (hnodup : ids.Nodup)
    (hfree : ∀ id ∈ ids, id ∉ order) {e : ModelError α} (hrun : (runOrder ids).run m = .error e m') :
    ∃ pre id post, ids = pre ++ id :: post ∧ Evaluated m₀ (order ++ pre) m' ∧
      ∀ b, m₀.block? id = some b → m'.nextValue b = .error e ∨
        m'.nextValue b = .ok none ∧ m'.block? id = some b := by
  induction ids generalizing order m with
  | nil => cases hrun
  | cons id ids ih =>
      obtain ⟨hidrest, hrestnodup⟩ := List.nodup_cons.mp hnodup
      have hid := hfree id List.mem_cons_self
      rcases run_bind_error.mp hrun with hblock | ⟨u, m₁, hblock, hrest⟩
      · refine ⟨[], id, ids, rfl, ?_⟩
        rw [List.append_nil]
        rcases run_bind_error.mp hblock with hrefresh | ⟨r, m₁, hrefresh, hblock⟩
        · obtain ⟨rfl, hvalue⟩ := refresh_error hrefresh
          exact ⟨h, fun b hb => .inl (hvalue b ((h.untouched id hid).trans hb))⟩
        · cases r with
          | false =>
              cases hblock
              obtain ⟨b, hb, ⟨-, rfl, hvalue⟩ | ⟨value, hfalse, -⟩⟩ := refresh_ok hrefresh
              · refine ⟨h, fun c hc => .inr ?_⟩
                rw [← h.untouched id hid] at hc
                cases hb.symm.trans hc
                exact ⟨hvalue, hb⟩
              · cases hfalse
          | true => cases hblock
      · obtain ⟨r, m₂, hrefresh, hblock⟩ := run_bind_ok.mp hblock
        cases r with
        | false => cases hblock
        | true =>
            cases hblock
            have hrestfree : ∀ j ∈ ids, j ∉ order ++ [id] := by
              intro j hj
              rw [List.mem_append, List.mem_singleton, not_or]
              exact ⟨hfree j (List.mem_cons_of_mem id hj), fun heq => hidrest (heq ▸ hj)⟩
            obtain ⟨pre, k, post, rfl, hpre, hvalue⟩ :=
              ih (h.step hid hrefresh) hrestnodup hrestfree hrest
            rw [← List.append_cons] at hpre
            exact ⟨id :: pre, k, post, rfl, hpre, hvalue⟩

theorem runOrder_error {ids : List BlockId} (h : Evaluated m₀ order m) (hnodup : ids.Nodup)
    (hfree : ∀ id ∈ ids, id ∉ order) {e : ModelError α} (hrun : (runOrder ids).run m = .error e m') :
    ∃ done, Evaluated m₀ done m' := by
  obtain ⟨pre, -, -, -, hpre, -⟩ := h.runOrder_error_at hnodup hfree hrun
  exact ⟨order ++ pre, hpre⟩

end Evaluated

end Model

end BlockDiagram
