import BlockDiagram.Proofs.Model.Runnable
/-! Caching: an execution order that a model keeps is one of its present wiring, for whatever changes the
wiring drops it. Once a model has been evaluated, it can be evaluated again and again, and so it can
after being completed. -/

namespace BlockDiagram

open Call

variable {α : Type} [Scalar α]

namespace Model

variable {m m' m₀ : Model α} {l : List BlockId}

/-- The model can be evaluated along the list, at any input values. -/
structure Ordered (m : Model α) (l : List BlockId) : Prop where
  order : m.IsOrder l
  fits : ∀ id b, m.block? id = some b → m.Fits b
  fed : m.Fed

/-- The order that the model keeps, if it keeps one, has not become stale. -/
def Cached (m : Model α) : Prop := ∀ l, m.order = some l → m.Ordered l

theorem Ordered.of_bare (h : m.Ordered l) (hbare : m'.bare = m.bare) : m'.Ordered l := by
  constructor
  · refine ⟨?_, fun pre id post heq p hr => h.order.2 pre id post heq p (hr.of_bare hbare)⟩
    rw [blockIds, size_of_bare hbare]
    exact h.order.1
  · exact all_fit_of_bare h.fits hbare
  · exact h.fed.of_bare hbare

omit [Scalar α] in
theorem Ordered.runnable (h : m.Ordered l) : m.Runnable :=
  ⟨⟨h.fits, h.order.ranked⟩, h.fed⟩

/-- Computing all blocks one after the other shows an order. -/
theorem Ordered.of_evaluated (h : Evaluated m₀ l m) (hall : l.Perm m₀.blockIds) : m₀.Ordered l := by
  have hsolved : ∀ id b, m₀.block? id = some b → m₀.Fits b ∧
      ∃ xs, List.Forall₂ (fun s x => m.valueOn? s = some x) b.inputs xs := by
    intro id b hb
    obtain ⟨c, b₀, hc, -, hfits, xs, hxs, -⟩ :=
      h.solved id (hall.mem_iff.mpr (Handle.mem_all.mpr (block?_lt hb)))
    obtain ⟨b', hb', -, hkind, hslots, -⟩ := block_of_bare h.bare hc
    cases hb.symm.trans hb'
    rw [Fits, hkind, hslots]
    exact ⟨hfits, xs, hxs⟩
  constructor
  · exact ⟨hall, h.ordered⟩
  · exact fun id b hb => (hsolved id b hb).1
  · intro id b hb s hs
    obtain ⟨-, xs, hxs⟩ := hsolved id b hb
    obtain ⟨x, -, hx⟩ := forall₂_exists hxs s hs
    obtain ⟨p, hp, -⟩ := Option.bind_eq_some_iff.mp hx
    rw [producer?_of_bare h.bare] at hp
    exact ⟨p, hp⟩

theorem Cached.of_bare (h : m.Cached) (hbare : m'.bare = m.bare) (horder : m'.order = m.order) :
    m'.Cached := fun l hl => (h l (horder ▸ hl)).of_bare hbare

theorem Cached.advance (h : m.Cached) : m.advance.Cached := h.of_bare rfl rfl

/-- An evaluation that breaks off leaves the order as it was. -/
theorem Evaluated.cached {done : List BlockId} (h : Evaluated m₀ done m) (hm₀ : m₀.Cached) : m.Cached :=
  hm₀.of_bare h.bare (by rw [h.rest])

theorem Computes.keeps_order (h : m.Computes m') (hm : m.Sound) :
    ∃ l, m'.order = some l ∧ m'.Ordered l := by
  obtain ⟨l, m₁, hl, hperm, rfl⟩ := h.evaluated hm
  exact ⟨l, rfl, (Ordered.of_evaluated hl hperm).of_bare hl.bare⟩

theorem Computes.cached (h : m.Computes m') (hm : m.Sound) : m'.Cached := by
  obtain ⟨l, horder, hl⟩ := h.keeps_order hm
  intro l' hl'
  cases horder.symm.trans hl'
  exact hl

/-- Completion either changes nothing or drops the order. -/
theorem order_of_complete (h : Relation.ReflTransGen Extends m m') : m' = m ∨ m'.order = none := by
  rcases Relation.ReflTransGen.cases_tail h with rfl | ⟨n, -, hstep⟩
  · exact .inl rfl
  · right
    cases hstep with
    | limit _ _ => rfl
    | feed _ _ => rfl
    | tap _ _ => rfl

/-- A sound model whose order, if there is one, is not stale. -/
structure Current (m : Model α) : Prop where
  sound : m.Sound
  cached : m.Cached

theorem Current.set_value (h : m.Current) (i : Nat) (value : α) :
    ({ m with blocks := m.blocks.modify i fun b => { b with value } } : Model α).Current :=
  ⟨h.sound.set_value i value, h.cached.of_bare (m.set_value_bare i value) rfl⟩

theorem keeps_current_cycle : Keeps Current (cycle : Running α Unit) := by
  intro m hm
  refine ⟨keeps_cycle m hm.sound, ?_⟩
  cases hrun : cycle.run m with
  | ok u m' =>
      rw [final_of_ok hrun]
      exact Computes.cached (.inl hrun) hm.sound
  | error e m' =>
      rw [final_of_error hrun]
      obtain ⟨done, hdone⟩ := cycle_error_evaluated hm.sound hrun
      exact hdone.cached hm.cached.advance

theorem keeps_current_prepare : Keeps Current (prepare : Running α Unit) := by
  intro m hm
  cases horder : m.order with
  | some l =>
      rw [final_of_ok (prepare_run_of_some (by rw [horder]; rfl))]
      exact hm
  | none =>
      have hfinal : final prepare m = final cycle m := by
        rw [final, final, cycle_run_eq_prepare horder]
      rw [hfinal]
      exact keeps_current_cycle m hm

theorem keeps_current_complete : Keeps Current (complete : Running α Unit) := by
  intro m hm
  refine ⟨keeps_complete m hm.sound, ?_⟩
  obtain ⟨m', hrun, hext, -⟩ := complete_run hm.sound.edges
  rw [final_of_ok hrun]
  rcases order_of_complete hext with rfl | hnone
  · exact hm.cached
  · intro l hl
    rw [hnone] at hl
    cases hl

theorem keeps_current (c : ModelCall α) : Keeps Current c.run := by
  cases c with
  | complete => exact keeps_current_complete
  | setInput key value => exact keeps_setInput (fun _ i x h => h.set_value i x) key value
  | loadInputs records => exact keeps_loadInputs (fun _ i x h => h.set_value i x) records
  | prepare => exact keeps_current_prepare
  | cycle => exact keeps_current_cycle

theorem Reachable.current (h : m.Reachable) : m.Current := by
  induction h with
  | @wired d m hd hm =>
      have hwired := Draft.wire_ok hd.sound hm
      refine ⟨hwired.sound hd.sound, fun l hl => ?_⟩
      rw [hwired.fresh.2.2.1] at hl
      cases hl
  | call c _ ih => exact keeps_current c _ ih

theorem Operated.current (h : Operated m₀ m) (hm₀ : m₀.Current) : m.Current := by
  induction h with
  | built => exact hm₀
  | assign value _ _ ih => exact ih.set_value _ value
  | call c _ ih => exact keeps_current c _ ih

/-- Why the value of a block cannot be told: it is none of the order's doing. -/
theorem Evaluated.nextValue_error {done : List BlockId} (h : Evaluated m₀ done m) (hm₀ : m₀.Sound)
    {id : BlockId} {b : Block α} (hb : m₀.block? id = some b) {e : ModelError α}
    (hvalue : m.nextValue b = .error e) :
    (∃ name tag a n, e = .arity name tag a n) ∨ (∃ v, e = .violation (.noProducer v)) ∨
      ∃ i n, e = .outOfBounds i n := by
  by_cases hfits : m.Fits b
  · exact .inr (inputValues_error ((h.sound hm₀).inputValues_of_nextValue (h.inRange hm₀ hb) hfits hvalue))
  · rw [nextValue_of_not_fits hfits] at hvalue
    cases hvalue
    exact .inl ⟨_, _, _, _, rfl⟩

omit [Scalar α] in
theorem loadInputs_error {records : List (Record α)} {e : ModelError α}
    (hrun : (loadInputs records).run m = .error e m') : ∃ key, e = .unknownInput key := by
  induction records generalizing m with
  | nil => cases hrun
  | cons r records ih =>
      rcases run_bind_error.mp hrun with hset | ⟨u, m₁, -, hrest⟩
      · rw [setInput_run] at hset
        split at hset
        · cases hset
          exact ⟨_, rfl⟩
        · cases hset
      · exact ih hrest

theorem prepare_not_scheduled_early (hm : m.Sound) {e : ModelError α}
    (hrun : prepare.run m = .error e m') (block : String) : e ≠ .violation (.scheduledEarly block) := by
  rcases hm.search_error hrun with ⟨done, -, rfl, -⟩ | ⟨id, b, done, hdone, hb, hvalue, -⟩
  · intro heq
    cases heq
  · rcases hdone.nextValue_error hm.advance hb hvalue with
      ⟨name, tag, a, n, rfl⟩ | ⟨v, rfl⟩ | ⟨i, n, rfl⟩ <;> intro heq <;> cases heq

/-- No call complains of an order that computes a block before its inputs. -/
theorem Current.not_scheduled_early (h : m.Current) (c : ModelCall α) {e : ModelError α}
    (hrun : c.run.run m = .error e m') (block : String) : e ≠ .violation (.scheduledEarly block) := by
  cases c with
  | complete =>
      obtain ⟨m₁, hok, -⟩ := complete_run h.sound.edges
      cases hok.symm.trans hrun
  | setInput key value =>
      rw [ModelCall.run, setInput_run] at hrun
      split at hrun
      · cases hrun
        intro heq
        cases heq
      · cases hrun
  | loadInputs records =>
      obtain ⟨key, rfl⟩ := loadInputs_error hrun
      intro heq
      cases heq
  | prepare => exact prepare_not_scheduled_early h.sound hrun block
  | cycle =>
      cases horder : m.order with
      | none =>
          rw [ModelCall.run, cycle_run_eq_prepare horder] at hrun
          exact prepare_not_scheduled_early h.sound hrun block
      | some l =>
          have hl := h.cached l horder
          obtain ⟨m₁, hok⟩ := hl.order.walk hl.fits hl.fed h.sound horder
          cases hok.symm.trans hrun

/-- A call on a model leads from one to the other, whether it succeeds or fails. -/
def Calls (m m' : Model α) : Prop := ∃ c : ModelCall α, m' = final c.run m

/-- A model that can be evaluated, at any input values and after any call. -/
structure Steady (m : Model α) : Prop extends m.Current where
  runnable : m.Runnable

theorem Steady.prepare (h : m.Steady) : ∃ m', Model.prepare.run m = .ok () m' := by
  cases horder : m.order with
  | none => exact h.runnable.prepare h.sound horder
  | some l => exact ⟨m, prepare_run_of_some (by rw [horder]; rfl)⟩

theorem Steady.cycle (h : m.Steady) : ∃ m', Model.cycle.run m = .ok () m' := by
  cases horder : m.order with
  | none =>
      rw [cycle_run_eq_prepare horder]
      exact h.runnable.prepare h.sound horder
  | some l =>
      have hl := h.cached l horder
      exact hl.order.walk hl.fits hl.fed h.sound horder

/-- Only completion changes the graph, and it keeps the model runnable. -/
theorem Steady.call (h : m.Steady) (c : ModelCall α) : (final c.run m).Steady := by
  refine ⟨keeps_current c m h.toCurrent, ?_⟩
  rcases call_bare_or_complete c h.sound with rfl | hbare
  · obtain ⟨m', hrun, -⟩ := complete_run h.sound.edges
    rw [ModelCall.run, final_of_ok hrun]
    exact h.runnable.complete h.sound.edges hrun
  · exact h.runnable.of_bare hbare

theorem Steady.calls (h : m.Steady) (hcalls : Relation.ReflTransGen Calls m m') : m'.Steady := by
  induction hcalls with
  | refl => exact h
  | tail _ hcall ih =>
      obtain ⟨c, rfl⟩ := hcall
      exact ih.call c

/-- One evaluation shows that there can be more. -/
theorem Current.steady (h : m.Current) (hrun : cycle.run m = .ok () m' ∨ prepare.run m = .ok () m') :
    m'.Steady := by
  by_cases hcomputes : m.Computes m'
  · obtain ⟨l, horder, hl⟩ := hcomputes.keeps_order h.sound
    exact ⟨⟨hcomputes.sound h.sound, hcomputes.cached h.sound⟩, hl.runnable⟩
  · -- Preparing a model that has an order leaves it alone.
    rcases hrun with hrun | hrun
    · exact absurd (.inl hrun) hcomputes
    · cases horder : m.order with
      | none => exact absurd (.inr ⟨horder, hrun⟩) hcomputes
      | some l =>
          rw [prepare_run_of_some (by rw [horder]; rfl)] at hrun
          cases hrun
          exact ⟨h, (h.cached l horder).runnable⟩

/-- A cached order is never stale: it lists all blocks, each behind those it reads, and all input counts
fit and all that is read is produced. So no walk along it meets a block before its inputs. Once a model has
been evaluated, every later evaluation succeeds, whatever has been called in between. -/
theorem Reachable.order_never_stale (h : m.Reachable) :
    (∀ l, m.order = some l → m.IsOrder l ∧ (∀ id b, m.block? id = some b → m.Fits b) ∧
      ∀ id b, m.block? id = some b → ∀ s ∈ b.inputs, ∃ p, m.producer? s = some p) ∧
    (∀ (c : ModelCall α) (e : ModelError α) (m' : Model α), c.run.run m = .error e m' →
      ∀ block, e ≠ .violation (.scheduledEarly block)) ∧
    ∀ m', cycle.run m = .ok () m' ∨ prepare.run m = .ok () m' → ∀ n, Relation.ReflTransGen Calls m' n →
      (∃ n', prepare.run n = .ok () n') ∧ ∃ n', cycle.run n = .ok () n' := by
  have hcurrent := h.current
  refine ⟨?_, fun c e m' hrun => hcurrent.not_scheduled_early c hrun, ?_⟩
  · intro l hl
    have hordered := hcurrent.cached l hl
    exact ⟨hordered.order, hordered.fits, hordered.fed⟩
  · intro m' hrun n hcalls
    have hsteady := (hcurrent.steady hrun).calls hcalls
    exact ⟨hsteady.prepare, hsteady.cycle⟩

/-- A constant with a limit, at which a table is read. It can be evaluated before it is complete. -/
def clipped : Draft Float :=
  .after "clipped"
    [ .breakpoints "A" [0, 1], .table (some "T") ["A"] #[5, 7],
      .signal ((Signal.declare "x" "x" "").withLimits (some 0) (some 1)),
      .block "source" (.constant (-3)), .output ⟨0⟩ (.variable "x"),
      .signal (Signal.declare "y" "y" ""), .function "curve" "T" ["x"] "y" ]

/-- Completing the evaluated model drops its order, and then a cycle finds another. -/
theorem clipped_evaluated_again :
    ∃ m m' n n' : Model Float, clipped.wire = .ok m ∧ (m.blocks.toList.any fun b => b.kind.isLookup) ∧
      prepare.run m = .ok () m' ∧ m'.order.isSome ∧ complete.run m' = .ok () n ∧ n.order = none ∧
      cycle.run n = .ok () n' := by
  have hruns : clipped.wire.toOption.any (fun m => (m.blocks.toList.any fun b => b.kind.isLookup) &&
      match prepare.run m with
      | .ok () m' => m'.order.isSome && match complete.run m' with
        | .ok () n => n.order.isNone
        | .error _ _ => false
      | .error _ _ => false) = true := by decide +kernel
  obtain ⟨m, hm, hrun⟩ := outcome_of_any hruns
  rw [Bool.and_eq_true] at hrun
  obtain ⟨hlookup, hrun⟩ := hrun
  split at hrun
  · rename_i m' hprepare
    rw [Bool.and_eq_true] at hrun
    obtain ⟨hsome, hrun⟩ := hrun
    split at hrun
    · rename_i n hcomplete
      have hreach : m.Reachable := .wired (Draft.reachable_after _ _) hm
      have hcalls : Relation.ReflTransGen Calls m' n :=
        .single ⟨.complete, (final_of_ok hcomplete).symm⟩
      obtain ⟨-, n', hcycle⟩ := hreach.order_never_stale.2.2 m' (.inr hprepare) n hcalls
      exact ⟨m, m', n, n', hm, hlookup, hprepare, hsome, hcomplete, Option.isNone_iff_eq_none.mp hrun,
        hcycle⟩
    · cases hrun
  · cases hrun

end Model

end BlockDiagram
