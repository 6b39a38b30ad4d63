import BlockDiagram.Proofs.Model.Settled
import Mathlib.Data.List.MinMax
import Mathlib.Order.Nat
/-! Rounds: which blocks each pass over the pending ones computes. The number of the pass has a closed form
in the wiring alone, and the order found is that of the passes, with the order of the arena inside a
pass. -/

namespace BlockDiagram

open Call

variable {α : Type}

namespace Model

/-- The producers of what a block reads, in slot order. -/
def producersOf (m : Model α) (id : BlockId) : List BlockId :=
  (m.block? id).elim [] fun b => b.inputs.filterMap m.producer?

/-- One where the producer stands behind its reader in the arena: a pass comes to it later. -/
def lag (id p : BlockId) : Nat := if id.index < p.index then 1 else 0

/-- The pass in which a block is computed if its producers are computed in the passes given. -/
def passAfter (m : Model α) (f : BlockId → Nat) (id : BlockId) : Nat :=
  max 1 (((m.producersOf id).map fun p => f p + lag id p).foldr max 0)

/-- The pass of a block, as far as chains of the given number of blocks tell. -/
def passWithin (m : Model α) : Nat → BlockId → Nat
  | 0 => fun _ => 1
  | n + 1 => m.passAfter (m.passWithin n)

/-- The pass that computes a block in the search for an order. -/
def pass (m : Model α) : BlockId → Nat := m.passWithin m.blocks.size

/-- The numbers are those of passes: one for a block without producers; for any other the greatest of
its producers' numbers, with one more for a producer that stands behind it. -/
def IsPass (m : Model α) (f : BlockId → Nat) : Prop := ∀ id ∈ m.blockIds, f id = m.passAfter f id

/-- The blocks with a number. -/
def stage (m : Model α) (f : BlockId → Nat) (k : Nat) : List BlockId :=
  m.blockIds.filter fun id => f id = k

/-- The blocks with a greater number. -/
def beyond (m : Model α) (f : BlockId → Nat) (k : Nat) : List BlockId :=
  m.blockIds.filter fun id => k < f id

/-- The next stages behind the given number. -/
def stagesFrom (m : Model α) (f : BlockId → Nat) (k count : Nat) : List (List BlockId) :=
  (List.range count).map fun i => m.stage f (k + i + 1)

/-- The number of the last pass. -/
def passes (m : Model α) : Nat := (m.blockIds.map m.pass).foldr max 0

/-- The blocks of each pass, in the order of the arena. -/
def stages (m : Model α) : List (List BlockId) := m.stagesFrom m.pass 0 m.passes

/-- An earlier pass, or an earlier place in the same one. -/
def Before (m : Model α) (a b : BlockId) : Prop :=
  m.pass a < m.pass b ∨ m.pass a = m.pass b ∧ a.index < b.index

section Pass

variable {m n : Model α} {f g : BlockId → Nat} {l : List BlockId} {id p : BlockId}

theorem mem_producersOf : p ∈ m.producersOf id ↔ m.Reads id p := by
  rw [producersOf, Reads]
  cases m.block? id with
  | none => simp
  | some b => simp [List.mem_filterMap]

theorem lag_le_one (id p : BlockId) : lag id p ≤ 1 := by
  rw [lag]
  split <;> decide

theorem foldr_max_le_iff {xs : List Nat} {k : Nat} : xs.foldr max 0 ≤ k ↔ ∀ x ∈ xs, x ≤ k :=
  ⟨fun h _ hx => (List.le_max_of_le' 0 hx le_rfl).trans h, fun h => List.max_le_of_forall_le xs k h⟩

theorem passAfter_le_iff {k : Nat} :
    m.passAfter f id ≤ k ↔ 1 ≤ k ∧ ∀ p, m.Reads id p → f p + lag id p ≤ k := by
  rw [passAfter, max_le_iff, foldr_max_le_iff, List.forall_mem_map]
  simp only [mem_producersOf]

theorem passAfter_congr (hreads : ∀ p, m.Reads id p ↔ n.Reads id p)
    (hf : ∀ p, m.Reads id p → f p = g p) : m.passAfter f id = n.passAfter g id := by
  refine eq_of_forall_ge_iff fun k => ?_
  rw [passAfter_le_iff, passAfter_le_iff]
  refine and_congr_right fun _ => forall_congr' fun p => ?_
  rw [← hreads p]
  exact imp_congr_right fun hr => by rw [hf p hr]

/-- The passes depend on the wiring only. -/
theorem pass_congr (hsize : m.blocks.size = n.blocks.size)
    (hreads : ∀ id p, m.Reads id p ↔ n.Reads id p) : m.pass = n.pass := by
  have hwithin : ∀ k, m.passWithin k = n.passWithin k := by
    intro k
    induction k with
    | zero => rfl
    | succ k ih =>
        funext id
        exact passAfter_congr (hreads id) fun p _ => congrFun ih p
  rw [pass, pass, hsize, hwithin]

theorem stages_congr (hsize : m.blocks.size = n.blocks.size)
    (hreads : ∀ id p, m.Reads id p ↔ n.Reads id p) : m.stages = n.stages := by
  simp only [stages, stagesFrom, stage, passes, blockIds, hsize, pass_congr hsize hreads]

theorem IsPass.pos (h : m.IsPass f) (hid : id ∈ m.blockIds) : 0 < f id := by
  rw [h id hid, passAfter]
  exact Nat.lt_of_lt_of_le Nat.zero_lt_one (Nat.le_max_left _ _)

namespace IsOrder

theorem mem_of_reads (h : m.IsOrder l) (hr : m.Reads id p) : p ∈ m.blockIds :=
  h.1.mem_iff.mp (List.idxOf_lt_length_iff.mp
    (Nat.lt_of_lt_of_le (h.idxOf_lt hr) List.idxOf_le_length))

theorem passWithin_eq (h : m.IsOrder l) {k k' : Nat} (hk : l.idxOf id < k) (hk' : l.idxOf id < k') :
    m.passWithin k id = m.passWithin k' id := by
  induction k generalizing k' id with
  | zero => exact absurd hk (Nat.not_lt_zero _)
  | succ k ih =>
      cases k' with
      | zero => exact absurd hk' (Nat.not_lt_zero _)
      | succ k' =>
          refine passAfter_congr (fun _ => Iff.rfl) fun p hr => ?_
          have hlt := h.idxOf_lt hr
          exact ih (by omega) (by omega)

/-- Where there is an order, no chain is longer than the arena. -/
theorem isPass (h : m.IsOrder l) : m.IsPass m.pass := by
  intro id hid
  have hlt : l.idxOf id < m.blocks.size := by
    have hmem := List.idxOf_lt_length_iff.mpr (h.1.mem_iff.mpr hid)
    rwa [h.1.length_eq, blockIds, Handle.length_all] at hmem
  exact h.passWithin_eq hlt (Nat.lt_succ_of_lt hlt)

/-- The equations for the passes have one solution: what they ask of a block is about blocks before it in
the order. -/
theorem isPass_unique (h : m.IsOrder l) (hf : m.IsPass f) (hg : m.IsPass g) :
    ∀ id ∈ m.blockIds, f id = g id := by
  intro id hid
  induction hlen : l.idxOf id using Nat.strongRecOn generalizing id with
  | ind i ih =>
      rw [hf id hid, hg id hid]
      refine passAfter_congr (fun _ => Iff.rfl) fun p hr => ?_
      exact ih _ (hlen ▸ h.idxOf_lt hr) p (h.mem_of_reads hr) rfl

end IsOrder

theorem mem_stage {k : Nat} : id ∈ m.stage f k ↔ id ∈ m.blockIds ∧ f id = k := by
  rw [stage, List.mem_filter, decide_eq_true_iff]

theorem mem_beyond {k : Nat} : id ∈ m.beyond f k ↔ id ∈ m.blockIds ∧ k < f id := by
  rw [beyond, List.mem_filter, decide_eq_true_iff]

theorem mem_of_beyond_eq {k : Nat} {pre rest : List BlockId}
    (h : m.beyond f k = pre ++ id :: rest) : id ∈ m.blockIds ∧ k < f id := by
  rw [← mem_beyond, h]
  exact List.mem_append_right pre List.mem_cons_self

theorem IsPass.beyond_zero (h : m.IsPass f) : m.beyond f 0 = m.blockIds :=
  List.filter_eq_self.mpr fun _ hid => decide_eq_true (h.pos hid)

/-- The stages one after the other are sorted by pass, and by position inside a pass. -/
theorem stages_sorted (m : Model α) : m.stages.flatten.Pairwise m.Before := by
  rw [List.pairwise_flatten, stages, stagesFrom, List.forall_mem_map, List.pairwise_map]
  constructor
  · intro i _
    refine ((Handle.ascending_all _).filter _).imp_of_mem fun ha hb hlt => .inr ⟨?_, hlt⟩
    exact (mem_stage.mp ha).2.trans (mem_stage.mp hb).2.symm
  · refine List.pairwise_lt_range.imp fun hlt a ha b hb => .inl ?_
    rw [(mem_stage.mp ha).2, (mem_stage.mp hb).2]
    omega

/-- The last pass is the greatest number there is. -/
theorem passes_eq {count : Nat} (hbound : ∀ id ∈ m.blockIds, m.pass id ≤ count)
    (hattained : count ≠ 0 → ∃ id ∈ m.blockIds, m.pass id = count) : m.passes = count := by
  refine Nat.le_antisymm ?_ ?_
  · rw [passes, foldr_max_le_iff, List.forall_mem_map]
    exact hbound
  · by_cases hzero : count = 0
    · rw [hzero]
      exact Nat.zero_le _
    · obtain ⟨id, hid, rfl⟩ := hattained hzero
      exact List.le_max_of_le' 0 (List.mem_map_of_mem hid) le_rfl

theorem stagesFrom_succ (m : Model α) (f : BlockId → Nat) (k count : Nat) :
    m.stagesFrom f k (count + 1) = m.stage f (k + 1) :: m.stagesFrom f (k + 1) count := by
  rw [stagesFrom, List.range_succ_eq_map, List.map_cons, List.map_map]
  refine congrArg (m.stage f (k + 1) :: ·) (List.map_congr_left fun i _ => ?_)
  rw [Function.comp_apply, Nat.succ_eq_add_one, ← Nat.add_assoc k i 1, Nat.add_right_comm k 1 i]

end Pass

variable [Scalar α]

/-- Trying blocks one after the other computes some of them. -/
inductive Sweep : List BlockId → Model α → List BlockId → Model α → Prop
  | nil (m : Model α) : Sweep [] m [] m
  | computed {id : BlockId} {ids done : List BlockId} {m m₁ m' : Model α} :
      (refresh id).run m = .ok true m₁ → Sweep ids m₁ done m' → Sweep (id :: ids) m (id :: done) m'
  | stale {id : BlockId} {ids done : List BlockId} {m m₁ m' : Model α} :
      (refresh id).run m = .ok false m₁ → Sweep ids m₁ done m' → Sweep (id :: ids) m done m'

/-- Passes over pending blocks until none is left, with the blocks that each pass computes. -/
inductive Rounds : List BlockId → Model α → List (List BlockId) → Model α → Prop
  | done (m : Model α) : Rounds [] m [] m
  | round {pending computed : List BlockId} {rounds : List (List BlockId)} {m m₁ m' : Model α} :
      pending ≠ [] → Sweep pending m computed m₁ →
      Rounds (pending.filter fun id => !m₁.isReady id) m₁ rounds m' →
      Rounds pending m (computed :: rounds) m'

section Rounds

variable {m₀ m m' n n' : Model α} {P : BlockId → Nat} {k : Nat} {l order computed done pre rest :
  List BlockId} {id : BlockId}

theorem sweep_of_runPass {pending : List BlockId} (hrun : (runPass pending).run m = .ok () m') :
    ∃ computed, Sweep pending m computed m' := by
  induction pending generalizing m with
  | nil =>
      cases hrun
      exact ⟨[], .nil _⟩
  | cons id rest ih =>
      obtain ⟨r, m₁, hrefresh, hrest⟩ := run_bind_ok.mp hrun
      obtain ⟨computed, hsweep⟩ := ih hrest
      cases r with
      | true => exact ⟨id :: computed, .computed hrefresh hsweep⟩
      | false => exact ⟨computed, .stale hrefresh hsweep⟩

omit [Scalar α] in
/-- What pass `k + 1` finds when it comes to a block: all the block reads has been computed just if the
pass is the block's own. The earlier passes have computed the blocks up to `k`, and this one has computed
those of its own that stand before the block. -/
theorem IsOrder.reads_done_iff (hl : m₀.IsOrder l) (hP : m₀.IsPass P)
    (hpending : m₀.beyond P k = pre ++ id :: rest)
    (hdone : ∀ p ∈ m₀.blockIds, p ∈ done ↔ P p ≤ k ∨ P p = k + 1 ∧ p ∈ pre) :
    (∀ p, m₀.Reads id p → p ∈ done) ↔ P id = k + 1 := by
  obtain ⟨hid, hlater⟩ := mem_of_beyond_eq hpending
  have hascending : (pre ++ id :: rest).Pairwise fun a b => a.index < b.index := by
    rw [← hpending]
    exact (Handle.ascending_all _).filter _
  rw [List.pairwise_append, List.pairwise_cons] at hascending
  obtain ⟨-, ⟨hrest, -⟩, hpre⟩ := hascending
  constructor
  · intro hreads
    refine Nat.le_antisymm ?_ hlater
    rw [hP id hid, passAfter_le_iff]
    refine ⟨Nat.succ_pos k, fun p hr => ?_⟩
    rcases (hdone p (hl.mem_of_reads hr)).mp (hreads p hr) with hearlier | ⟨hsame, hin⟩
    · exact Nat.add_le_add hearlier (lag_le_one id p)
    · rw [lag, if_neg (Nat.not_lt_of_lt (hpre p hin id List.mem_cons_self)), hsame]
  · intro hown p hr
    have hp := hl.mem_of_reads hr
    have hle : P p + lag id p ≤ k + 1 :=
      (passAfter_le_iff.mp (Nat.le_of_eq ((hP id hid).symm.trans hown))).2 p hr
    rw [hdone p hp]
    by_cases hearlier : P p ≤ k
    · exact .inl hearlier
    · -- The producer has the same pass, so it does not stand behind the block.
      refine .inr ⟨by omega, ?_⟩
      have hlag : ¬ id.index < p.index := by
        intro hbehind
        rw [lag, if_pos hbehind] at hle
        omega
      have hin : p ∈ pre ++ id :: rest := hpending ▸ mem_beyond.mpr ⟨hp, Nat.lt_of_not_le hearlier⟩
      rcases List.mem_append.mp hin with hin | hin
      · exact hin
      · rcases List.mem_cons.mp hin with rfl | hin
        · exact absurd (hl.idxOf_lt hr) (Nat.lt_irrefl _)
        · exact absurd (hrest p hin) hlag

/-- Pass `k + 1` computes the blocks with that number. The induction is on the blocks still to be tried;
those before them in the pass are `pre`. -/
theorem Sweep.computed_eq (hsweep : Sweep rest m computed m') (hl : m₀.IsOrder l) (hP : m₀.IsPass P)
    (h : Evaluated m₀ done m) (hpending : m₀.beyond P k = pre ++ rest)
    (hdone : ∀ p ∈ m₀.blockIds, p ∈ done ↔ P p ≤ k ∨ P p = k + 1 ∧ p ∈ pre) :
    computed = (rest.filter fun id => P id = k + 1) ∧ Evaluated m₀ (done ++ computed) m' := by
  induction hsweep generalizing done pre with
  | nil m => exact ⟨rfl, by rwa [List.append_nil]⟩
  | @computed id rest computed m m₁ m' hrefresh hsweep ih =>
      obtain ⟨hid, hlater⟩ := mem_of_beyond_eq hpending
      have hnodup : (pre ++ id :: rest).Nodup := by
        rw [← hpending]
        exact (Handle.nodup_all _).filter _
      have hfresh : id ∉ done := by
        rw [hdone id hid, not_or]
        refine ⟨Nat.not_le_of_lt hlater, fun hin => ?_⟩
        exact (List.nodup_append.mp hnodup).2.2 id hin.2 id List.mem_cons_self rfl
      have hstep := h.step hfresh hrefresh
      have hown : P id = k + 1 :=
        (hl.reads_done_iff hP hpending hdone).mp fun p hr => hstep.ordered done id [] rfl p hr
      have hnext : ∀ p ∈ m₀.blockIds,
          p ∈ done ++ [id] ↔ P p ≤ k ∨ P p = k + 1 ∧ p ∈ pre ++ [id] := by
        intro p hp
        rw [List.mem_append, List.mem_append, hdone p hp, List.mem_singleton]
        by_cases hsame : p = id
        · simp [hsame, hown]
        · simp [hsame]
      obtain ⟨hcomputed, hall⟩ := ih hstep (by rw [hpending, List.append_cons]) hnext
      refine ⟨?_, by rwa [List.append_cons]⟩
      rw [List.filter_cons_of_pos (by simpa using hown), hcomputed]
  | @stale id rest computed m m₁ m' hrefresh hsweep ih =>
      obtain ⟨b, hb, ⟨-, rfl, hvalue⟩ | ⟨value, htrue, -⟩⟩ := refresh_ok hrefresh
      · obtain ⟨p, hr, hnot⟩ := h.waits hb hvalue
        have hother : P id ≠ k + 1 := fun hown =>
          hnot ((hl.reads_done_iff hP hpending hdone).mpr hown p hr)
        have hnext : ∀ p ∈ m₀.blockIds, p ∈ done ↔ P p ≤ k ∨ P p = k + 1 ∧ p ∈ pre ++ [id] := by
          intro p hp
          rw [List.mem_append, hdone p hp, List.mem_singleton]
          by_cases hsame : p = id
          · simp [hsame, hother]
          · simp [hsame]
        rw [List.filter_cons_of_neg (by simpa using hother)]
        exact ih h (by rw [hpending, List.append_cons]) hnext
      · cases htrue

/-- The blocks up to pass `k` have been computed, and no others. -/
structure Through (m₀ : Model α) (P : BlockId → Nat) (k : Nat) (order : List BlockId) (m : Model α) :
    Prop where
  evaluated : Evaluated m₀ order m
  done : ∀ id ∈ m₀.blockIds, id ∈ order ↔ P id ≤ k

namespace Through

theorem isReady_eq (h : Through m₀ P k order m) (hid : id ∈ m₀.blockIds) :
    m.isReady id = decide (P id ≤ k) := by
  rw [Bool.eq_iff_iff, h.evaluated.isReady_iff, h.done id hid, decide_eq_true_iff]

theorem ready_eq (h : Through m₀ P (k + 1) order m) :
    (m₀.beyond P k).filter m.isReady = m₀.stage P (k + 1) := by
  rw [beyond, stage, List.filter_filter]
  refine List.filter_congr fun id hid => ?_
  rw [h.isReady_eq hid, ← Bool.decide_and, decide_eq_decide]
  omega

theorem stuck_eq (h : Through m₀ P (k + 1) order m) :
    ((m₀.beyond P k).filter fun id => !m.isReady id) = m₀.beyond P (k + 1) := by
  rw [beyond, beyond, List.filter_filter]
  refine List.filter_congr fun id hid => ?_
  rw [h.isReady_eq hid, ← decide_not, ← Bool.decide_and, decide_eq_decide]
  omega

/-- A pass over the blocks beyond `k` that ends well is pass `k + 1`. -/
theorem round (h : Through m₀ P k order m) (hl : m₀.IsOrder l) (hP : m₀.IsPass P)
    (hrun : (runPass (m₀.beyond P k)).run m = .ok () m') :
    Sweep (m₀.beyond P k) m (m₀.stage P (k + 1)) m' ∧
      Through m₀ P (k + 1) (order ++ m₀.stage P (k + 1)) m' := by
  obtain ⟨computed, hsweep⟩ := sweep_of_runPass hrun
  obtain ⟨hcomputed, hall⟩ :=
    hsweep.computed_eq hl hP h.evaluated (List.nil_append _).symm (by simpa using h.done)
  have hown : computed = m₀.stage P (k + 1) := by
    rw [hcomputed, beyond, stage, List.filter_filter]
    refine List.filter_congr fun id _ => ?_
    rw [← Bool.decide_and, decide_eq_decide]
    omega
  rw [hown] at hsweep hall
  refine ⟨hsweep, hall, fun id hid => ?_⟩
  rw [List.mem_append, h.done id hid, mem_stage, Nat.le_succ_iff]
  exact or_congr_right (and_iff_right hid)

/-- What a search does that has computed the blocks up to pass `k`: one round for each further pass. The
induction is on the number of blocks still pending. -/
theorem rounds (h : Through m₀ P k order m) (hl : m₀.IsOrder l) (hP : m₀.IsPass P)
    {found : List BlockId}
    (hrun : (schedulePending (m₀.beyond P k) order).run m = .ok found m') :
    ∃ count, Rounds (m₀.beyond P k) m (m₀.stagesFrom P k count) m' ∧
      found = order ++ (m₀.stagesFrom P k count).flatten ∧
      (∀ id ∈ m₀.blockIds, P id ≤ k + count) ∧
      (count ≠ 0 → ∃ id ∈ m₀.blockIds, P id = k + count) := by
  induction hlen : (m₀.beyond P k).length using Nat.strongRecOn generalizing k order m with
  | ind size ih =>
      rw [schedulePending_run] at hrun
      split at hrun
      · rename_i hempty
        rw [List.isEmpty_iff] at hempty
        cases hrun
        rw [hempty]
        refine ⟨0, .done _, (List.append_nil _).symm, fun id hid => ?_, fun hne => absurd rfl hne⟩
        have hnot := List.filter_eq_nil_iff.mp hempty id hid
        simpa using hnot
      · rename_i hpending
        rw [List.isEmpty_iff] at hpending
        cases hpass : (runPass (m₀.beyond P k)).run m with
        | error e m₁ => rw [hpass] at hrun; cases hrun
        | ok u m₁ =>
            rw [hpass] at hrun
            obtain ⟨hsweep, hnext⟩ := h.round hl hP hpass
            dsimp only at hrun
            split at hrun
            · rename_i hlt
              rw [hnext.ready_eq, hnext.stuck_eq] at hrun
              rw [hnext.stuck_eq] at hlt
              obtain ⟨count, hrounds, hfound, hbound, hattained⟩ := ih _ (hlen ▸ hlt) hnext hrun rfl
              refine ⟨count + 1, ?_, ?_, fun id hid => ?_, fun _ => ?_⟩
              · rw [stagesFrom_succ]
                exact .round hpending hsweep (hnext.stuck_eq ▸ hrounds)
              · rw [hfound, stagesFrom_succ, List.flatten_cons, List.append_assoc]
              · have := hbound id hid
                omega
              · -- The last pass is this one if it has left nothing.
                by_cases hzero : count = 0
                · obtain ⟨id, hid⟩ := List.exists_mem_of_ne_nil _ hpending
                  obtain ⟨hid, hlater⟩ := mem_beyond.mp hid
                  have := hbound id hid
                  exact ⟨id, hid, by omega⟩
                · obtain ⟨id, hid, heq⟩ := hattained hzero
                  exact ⟨id, hid, by omega⟩
            · cases hrun

end Through

/-- A search that ends well runs the passes and keeps their blocks as the order. -/
theorem Sound.schedule_rounds (hm : m.Sound) (hrun : schedule.run m.advance = .ok () m') :
    m.IsOrder m.stages.flatten ∧ ∃ m₁, Rounds m.blockIds m.advance m.stages m₁ ∧
      m' = { m₁ with order := some m.stages.flatten } := by
  obtain ⟨found, m₁, hfound, hperm, rfl⟩ := schedule_ok hm.evaluated_start hrun
  have hl : m.IsOrder found := ⟨hperm, hfound.ordered⟩
  have hP : m.advance.IsPass m.pass := hl.isPass
  have hstart : Through m.advance m.pass 0 [] m.advance := by
    refine ⟨hm.evaluated_start, fun id hid => ?_⟩
    exact iff_of_false List.not_mem_nil (Nat.not_le_of_lt (hP.pos hid))
  rw [schedule_run, ← hP.beyond_zero] at hrun
  cases hpending : (schedulePending (m.advance.beyond m.pass 0) []).run m.advance with
  | error e m₂ => rw [hpending] at hrun; cases hrun
  | ok found' m₂ =>
      rw [hpending] at hrun
      obtain ⟨count, hrounds, hflat, hbound, hattained⟩ := hstart.rounds hl hP hpending
      simp only [Nat.zero_add] at hbound hattained
      obtain rfl : m.passes = count := passes_eq hbound hattained
      obtain rfl : found' = m.stages.flatten := hflat
      have hsame : ({ m₂ with order := some m.stages.flatten } : Model α) =
          { m₁ with order := some found } := (EStateM.Result.ok.inj hrun).2
      rw [hP.beyond_zero] at hrounds
      have hfound : m.stages.flatten = found := Option.some.inj (congrArg Model.order hsame)
      exact ⟨hfound ▸ hl, m₂, hrounds, hsame.symm⟩

/-- An evaluation that has to find an order finds the sorted one. -/
theorem Computes.order_eq (h : m.Computes m') (hm : m.Sound) (hnone : m.order = none) :
    m'.order = some m.stages.flatten := by
  have hprepare : prepare.run m = .ok () m' := by
    rcases h with hcycle | ⟨-, hprepare⟩
    · rw [← cycle_run_eq_prepare hnone]
      exact hcycle
    · exact hprepare
  rw [prepare_run_of_none hnone] at hprepare
  cases hschedule : schedule.run m.advance with
  | error e m₁ => rw [hschedule] at hprepare; cases hprepare
  | ok u m₁ =>
      rw [hschedule] at hprepare
      cases hprepare
      obtain ⟨-, m₂, -, rfl⟩ := hm.schedule_rounds hschedule
      rfl

/-- The order found is the canonical one. The equations for the passes have one solution, `pass`, on the
blocks of a model on which the search ends well. The search runs as many passes as the greatest number
says, and each computes the blocks of its number, so that every block is computed once and the order is
sorted by pass and then by position. It is that of every other reachable model with the same wiring,
whatever values it has and whatever has failed on it before. -/
theorem Reachable.order_canonical (hm : m.Reachable) (hrun : schedule.run m.advance = .ok () m') :
    (m.IsPass m.pass ∧ ∀ f, m.IsPass f → ∀ id ∈ m.blockIds, f id = m.pass id) ∧
    (∃ m₁, Rounds m.blockIds m.advance m.stages m₁ ∧
      m' = { m₁ with order := some m.stages.flatten }) ∧
    m.stages.length = (m.blockIds.map m.pass).foldr max 0 ∧
    m.stages.flatten.Perm m.blockIds ∧ m.stages.flatten.Pairwise m.Before ∧
    ∀ n n' : Model α, n.Reachable → n.blocks.size = m.blocks.size →
      (∀ id p, n.Reads id p ↔ m.Reads id p) → n.order = none → n.Computes n' →
      n'.order = m'.order := by
  obtain ⟨hl, m₁, hrounds, rfl⟩ := hm.sound.schedule_rounds hrun
  refine ⟨⟨hl.isPass, fun f hf => hl.isPass_unique hf hl.isPass⟩, ⟨m₁, hrounds, rfl⟩, ?_, hl.1,
    m.stages_sorted, ?_⟩
  · rw [stages, stagesFrom, List.length_map, List.length_range, passes]
  · intro n n' hn hsize hreads hnone hcomputes
    rw [hcomputes.order_eq hn.sound hnone, stages_congr hsize hreads]

end Rounds

/-- A constant that is negated three times over, by two blocks before it and one behind it. -/
def staggered : Draft Float :=
  .after "staggered"
    [ .signal (Signal.declare "A" "a" ""), .signal (Signal.declare "B" "b" ""),
      .signal (Signal.declare "C" "c" ""), .signal (Signal.declare "D" "d" ""),
      .block "second" .minus, .input ⟨0⟩ 0 (.variable "B"), .output ⟨0⟩ (.variable "C"),
      .block "first" .minus, .input ⟨1⟩ 0 (.variable "A"), .output ⟨1⟩ (.variable "B"),
      .block "k" (.constant 3), .output ⟨2⟩ (.variable "A"),
      .block "other" .minus, .input ⟨3⟩ 0 (.variable "A"), .output ⟨3⟩ (.variable "D") ]

/-- The block behind the constant, and the output behind that, need no pass of their own. Each block before
its producer needs one. -/
theorem staggered_order :
    ∃ m m' m₁ : Model Float, staggered.build = .ok m ∧ schedule.run m.advance = .ok () m' ∧
      m.blockIds.map m.pass = [3, 2, 1, 1, 3, 1] ∧
      Rounds m.blockIds m.advance [[⟨2⟩, ⟨3⟩, ⟨5⟩], [⟨1⟩], [⟨0⟩, ⟨4⟩]] m₁ ∧
      m'.order = some [⟨2⟩, ⟨3⟩, ⟨5⟩, ⟨1⟩, ⟨0⟩, ⟨4⟩] := by
  have hruns : staggered.build.toOption.any (fun m : Model Float =>
      (m.blockIds.map m.pass == [3, 2, 1, 1, 3, 1]) &&
        (m.stages == [[⟨2⟩, ⟨3⟩, ⟨5⟩], [⟨1⟩], [⟨0⟩, ⟨4⟩]]) &&
        (schedule.run m.advance matches .ok _ _)) = true := by decide +kernel
  obtain ⟨m, hm, hrun⟩ := outcome_of_any hruns
  rw [Bool.and_eq_true, Bool.and_eq_true, beq_iff_eq, beq_iff_eq] at hrun
  obtain ⟨⟨hpass, hstages⟩, hrun⟩ := hrun
  split at hrun
  · rename_i m' hschedule
    obtain ⟨-, ⟨m₁, hrounds, rfl⟩, -⟩ :=
      Reachable.order_canonical (Reachable.built (Draft.reachable_after _ _) hm) hschedule
    rw [hstages] at hrounds
    refine ⟨m, _, m₁, hm, hschedule, hpass, hrounds, ?_⟩
    rw [hstages]
    rfl
  · cases hrun

end Model

end BlockDiagram
