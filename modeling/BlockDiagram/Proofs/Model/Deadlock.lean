import BlockDiagram.Proofs.Model.Caching
import BlockDiagram.Proofs.Model.Names
/-! Deadlock: what an evaluation leaves behind that finds a loop. The blocks that wait for it are as they
were, all others have been computed, and every later evaluation finds the same loop. -/

namespace BlockDiagram

open Call

variable {α : Type} [Scalar α]

namespace Model

variable {m m' m₀ n n' : Model α} {names : List String} {id : BlockId}

/-- What remains of a model when a search for an order ends in a loop. -/
structure Stalled (m m' : Model α) (stuck : List BlockId) : Prop where
  waiting : ∀ id, id ∈ stuck ↔ id ∈ m.blockIds ∧ m.Looped id
  /-- A stuck block keeps its value and its stamp. -/
  kept : ∀ id ∈ stuck, m'.block? id = m.block? id
  /-- Any other block has been computed from the values of its producers, which are current. An input block
  has no producers and keeps the value it had. -/
  computed : ∀ id b, m'.block? id = some b → id ∉ stuck → b.isCurrent m'.epoch = true ∧
    ∃ b₀ xs, m.block? id = some b₀ ∧ List.Forall₂ m'.Carries b.inputs xs ∧
      b.kind.evaluate m'.breakpoints m'.tables b₀.value xs = .ok b.value
  frame : m' = { m with epoch := m.epoch.advance, blocks := m'.blocks }
  graph : m'.bare = m.bare
  unordered : m'.order = none

theorem reads_of_bare (h : m.bare = m'.bare) : m.Reads = m'.Reads := by
  funext b p
  exact propext ⟨fun hr => hr.of_bare h, fun hr => hr.of_bare h.symm⟩

theorem looped_of_bare (h : m.bare = m'.bare) : m.Looped = m'.Looped := by
  funext id
  rw [Looped, Looped, reads_of_bare h]

/-- A search that ends in a loop has computed all blocks but those that wait for one, and tells these. -/
theorem Sound.loop_found (hm : m.Sound) (hrun : prepare.run m = .error (.loop names) m') :
    ∃ done, Evaluated m.advance done m' ∧ names = (m.blockIds.filter (· ∉ done)).map m.nameOf ∧
      m.blockIds.filter (· ∉ done) ≠ [] ∧ (∀ id ∈ m.blockIds, id ∉ done ↔ m.Looped id) ∧
      (∃ c, Relation.TransGen m.Reads c c) ∧ ∀ id b, m.block? id = some b → m.Fits b := by
  rcases hm.search_error hrun with ⟨done, hdone, heq, hfound⟩ | ⟨id, b, done, hdone, hb, hvalue, -⟩
  · exact ⟨done, hdone, ModelError.loop.inj heq, hfound⟩
  · exfalso
    rcases hdone.nextValue_error hm.advance hb hvalue with
      ⟨name, tag, a, k, heq⟩ | ⟨v, heq⟩ | ⟨i, k, heq⟩ <;> cases heq

/-- What a computed block reads has been computed in the same epoch. -/
theorem Evaluated.carries {done : List BlockId} (h : Evaluated m₀ done m) (hid : id ∈ done) {b : Block α}
    (hb : m.block? id = some b) {s : SignalId} (hs : s ∈ b.inputs) {x : α}
    (hx : m.valueOn? s = some x) : m.Carries s x := by
  obtain ⟨p, hp, hvalue⟩ := Option.bind_eq_some_iff.mp hx
  obtain ⟨c, hc, rfl⟩ := Option.map_eq_some_iff.mp hvalue
  have hr : m₀.Reads id p := Reads.of_bare h.bare ⟨b, s, hb, hs, hp⟩
  refine ⟨p, c, hp, hc, ?_, rfl⟩
  rw [h.epoch]
  exact (h.current p c hc).mpr (h.reads_done hid hr)

theorem Evaluated.stalled {done : List BlockId} (h : Evaluated m.advance done m')
    (hnone : m.order = none) (hwait : ∀ id ∈ m.blockIds, id ∉ done ↔ m.Looped id) :
    m.Stalled m' (m.blockIds.filter (· ∉ done)) := by
  constructor
  · intro id
    rw [List.mem_filter, decide_eq_true_iff]
    exact and_congr_right (hwait id)
  · intro id hid
    exact h.untouched id (by simpa using List.of_mem_filter hid)
  · intro id b hb hnot
    have hid : id ∈ done := by
      have hlt := block?_lt hb
      rw [size_of_bare h.bare] at hlt
      by_contra hout
      exact hnot (List.mem_filter.mpr ⟨Handle.mem_all.mpr hlt, by simpa using hout⟩)
    obtain ⟨c, b₀, hc, hb₀, -, xs, hxs, heval⟩ := h.solved id hid
    cases hb.symm.trans hc
    rw [h.epoch, h.breakpoints, h.tables]
    exact ⟨(h.current id b hb).mpr hid, b₀, xs, hb₀,
      forall₂_imp hxs fun s hs x hx => h.carries hid hb hs hx, heval⟩
  · exact h.rest
  · exact h.bare
  · rw [h.rest]
    exact hnone

/-- A complete model without an order, in which every input count fits and some blocks lie on a loop. -/
structure Jammed (m : Model α) : Prop where
  sound : m.Sound
  complete : m.Complete
  fits : ∀ id b, m.block? id = some b → m.Fits b
  loop : ∃ c, Relation.TransGen m.Reads c c
  unordered : m.order = none

namespace Jammed

theorem of_bare (h : m.Jammed) (hbare : m'.bare = m.bare) (hsound : m'.Sound)
    (hnone : m'.order = none) : m'.Jammed where
  sound := hsound
  complete := h.complete.of_bare hbare
  fits := all_fit_of_bare h.fits hbare
  loop := by
    rw [reads_of_bare hbare]
    exact h.loop
  unordered := hnone

/-- Every evaluation of a jammed model finds the loop. -/
theorem fails (h : m.Jammed) {call : ModelCall α} (hcall : call = .prepare ∨ call = .cycle) :
    ∃ names m', call.run.run m = .error (.loop names) m' ∧ prepare.run m = .error (.loop names) m' := by
  have hsame : call.run.run m = prepare.run m := by
    rcases hcall with rfl | rfl
    · rfl
    · exact cycle_run_eq_prepare h.unordered
  have hends := h.sound.search_ends h.complete.fed h.unordered
  obtain ⟨names, m', hrun⟩ := hends.loop_of_fits h.fits h.loop
  exact ⟨names, m', hsame.trans hrun, hrun⟩

theorem call (h : m.Jammed) (c : ModelCall α) : (final c.run m).Jammed := by
  refine h.of_bare (call_bare c h.sound h.complete) (c.keeps_sound m h.sound) ?_
  have hevaluated : c = .prepare ∨ c = .cycle → (final c.run m).order = none := by
    intro hc
    obtain ⟨names, m', hrun, hprepare⟩ := h.fails hc
    obtain ⟨done, hdone⟩ := prepare_error_evaluated h.sound hprepare
    rw [final_of_error hrun, hdone.rest]
    exact h.unordered
  cases c with
  | complete =>
      rw [ModelCall.run, final_of_ok (h.complete.run h.sound.edges)]
      exact h.unordered
  | setInput key value =>
      exact keeps_setInput (P := fun n => n.order = none) (fun _ _ _ hn => hn) key value m h.unordered
  | loadInputs records =>
      exact keeps_loadInputs (P := fun n => n.order = none) (fun _ _ _ hn => hn) records m h.unordered
  | prepare => exact hevaluated (.inl rfl)
  | cycle => exact hevaluated (.inr rfl)

/-- Neither values nor calls resolve the jam. -/
theorem operated (h : m.Jammed) (hn : Operated m n) : n.Jammed := by
  induction hn with
  | built => exact h
  | @assign n id value _ _ ih =>
      exact ih.of_bare (n.set_value_bare id.index value) (ih.sound.set_value id.index value) ih.unordered
  | call c _ ih => exact ih.call c

end Jammed

/-- Which blocks a search reports depends on the graph only. -/
theorem Sound.loop_eq (hm : m.Sound) (hn : n.Sound) (hbare : n.bare = m.bare)
    (hrun : prepare.run m = .error (.loop names) m') {names' : List String}
    (hrun' : prepare.run n = .error (.loop names') n') : names' = names := by
  obtain ⟨done, -, rfl, -, hwait, -⟩ := hm.loop_found hrun
  obtain ⟨done', -, rfl, -, hwait', -⟩ := hn.loop_found hrun'
  have hblocks : n.blockIds = m.blockIds := by rw [blockIds, size_of_bare hbare, blockIds]
  rw [nameOf_of_bare hbare, hblocks]
  refine congrArg (List.map m.nameOf) (List.filter_congr fun id hid => ?_)
  rw [decide_eq_decide, hwait id hid, hwait' id (hblocks ▸ hid), looped_of_bare hbare]

/-- An evaluation that finds a loop had to find an order: along an order there are none. -/
theorem Current.prepare_of_loop (hm : m.Current) {call : ModelCall α}
    (hcall : call = .prepare ∨ call = .cycle) (hrun : call.run.run m = .error (.loop names) m') :
    prepare.run m = .error (.loop names) m' := by
  rcases hcall with rfl | rfl
  · exact hrun
  · cases horder : m.order with
    | none =>
        rw [← cycle_run_eq_prepare horder]
        exact hrun
    | some l =>
        have hl := hm.cached l horder
        obtain ⟨m₁, hok⟩ := hl.order.walk hl.fits hl.fed hm.sound horder
        cases hok.symm.trans hrun

/-- An evaluation of a built model that ends in a loop leaves a well-defined state. The blocks that wait for
a loop are as they were, and all others are current and solve their equations; the epoch is the next one,
and nothing else has changed. Every later evaluation fails too, whatever values the inputs are given and
whatever is called in between, and with the same blocks. -/
theorem loop_deadlocks {d : Draft α} (hd : d.Reachable) (hbuild : d.build = .ok m₀)
    (hm : Operated m₀ m) {call : ModelCall α} (hcall : call = .prepare ∨ call = .cycle)
    (hrun : call.run.run m = .error (.loop names) m') :
    (∃ stuck, stuck ≠ [] ∧ stuck.Sublist m.blockIds ∧ names = stuck.map m.nameOf ∧
      m.Stalled m' stuck) ∧
    (∀ x, m'.Recorded x ↔ m.Recorded x) ∧
    ∀ n, Operated m' n → ∀ again : ModelCall α, again = .prepare ∨ again = .cycle →
      ∃ n', again.run.run n = .error (.loop names) n' := by
  obtain ⟨hsound₀, hcomplete₀⟩ := Draft.built_sound_complete hd.sound hbuild
  obtain ⟨hsound, hbare₀⟩ := hm.sound_and_bare hsound₀ hcomplete₀
  have hprepare := (hm.current (Reachable.built hd hbuild).current).prepare_of_loop hcall hrun
  obtain ⟨hnone, -⟩ := prepare_error hprepare
  obtain ⟨done, hdone, hnames, hne, hwait, hcycle, hfits⟩ := hsound.loop_found hprepare
  have hjam : m.Jammed := ⟨hsound, hcomplete₀.of_bare hbare₀, hfits, hcycle, hnone⟩
  refine ⟨⟨_, hne, List.filter_sublist, hnames, hdone.stalled hnone hwait⟩, fun x => ?_, ?_⟩
  · exact ⟨fun hx => hx.evaluated hdone.bare.symm, fun hx => hx.evaluated hdone.bare⟩
  · intro n hn again hagain
    have hjam' : m'.Jammed := by
      have hcalled := hjam.call call
      rwa [final_of_error hrun] at hcalled
    have hlater := hjam'.operated hn
    have hbare : n.bare = m.bare :=
      (hn.sound_and_bare hjam'.sound hjam'.complete).2.trans hdone.bare
    obtain ⟨names', n', hfails, hprepare'⟩ := hlater.fails hagain
    rw [hsound.loop_eq hlater.sound hbare hprepare hprepare'] at hfails
    exact ⟨n', hfails⟩

/-- The loop is found again after the input has been set, also where a table is read before. -/
theorem feedback_deadlocks :
    ∃ (m m' n n' : Model Float) (stuck : List BlockId), feedback.build = .ok m ∧
      prepare.run m = .error (.loop ["sum", "sign", "double", "Z_output"]) m' ∧ m.Stalled m' stuck ∧
      (setInput "U" 1).run m' = .ok () n ∧
      cycle.run n = .error (.loop ["sum", "sign", "double", "Z_output"]) n' := by
  have hruns : feedback.build.toOption.any (fun m : Model Float =>
      match prepare.run m with
      | .error (.loop names) m' =>
          (names == ["sum", "sign", "double", "Z_output"]) && ((setInput "U" 1).run m' matches .ok _ _)
      | _ => false) = true := by decide +kernel
  obtain ⟨m, hm, hrun⟩ := outcome_of_any hruns
  split at hrun
  · rename_i names m' hprepare
    rw [Bool.and_eq_true, beq_iff_eq] at hrun
    obtain ⟨rfl, hrun⟩ := hrun
    split at hrun
    · rename_i n hset
      have hoperated : Operated m' n := by
        have hcall : Operated m' (final (ModelCall.setInput "U" 1).run m') := .call _ .built
        rwa [ModelCall.run, final_of_ok hset] at hcall
      obtain ⟨⟨stuck, -, -, -, hstalled⟩, -, hagain⟩ :=
        loop_deadlocks (Draft.reachable_after _ _) hm .built (.inl rfl) hprepare
      obtain ⟨n', hcycle⟩ := hagain n hoperated .cycle (.inr rfl)
      exact ⟨m, m', n, n', stuck, hm, hprepare, hstalled, hset, hcycle⟩
    · cases hrun
  · cases hrun

end Model

end BlockDiagram
