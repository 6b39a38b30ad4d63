import BlockDiagram.Proofs.Grid.Interpolation
import BlockDiagram.Proofs.Model.Reachable
import BlockDiagram.Scalar.Double
import Mathlib.Data.Fintype.Pigeonhole
import Mathlib.Data.Set.Finite.Basic
/-! Scheduling: the first evaluation of a complete model ends in one of three ways. Some block has an
input count that does not fit; or the graph has a loop, and the blocks that wait for it are named; or
an order is found. -/

namespace BlockDiagram

open Call

section Cycle

variable {β : Type} {R : β → β → Prop}

/-- In a finite list whose members all have a successor in it, every walk comes round. -/
theorem exists_cycle {S : List β} (hS : ∀ x ∈ S, ∃ y ∈ S, R x y) {b : β} (hb : b ∈ S) :
    ∃ c, Relation.ReflTransGen R b c ∧ Relation.TransGen R c c := by
  choose! next hnext hR using hS
  let walk : Nat → β := fun n => next^[n] b
  have hmem : ∀ n, walk n ∈ S := by
    intro n
    induction n with
    | zero => exact hb
    | succ n ih =>
        change next^[n + 1] b ∈ S
        rw [Function.iterate_succ_apply']
        exact hnext _ ih
  have hstep : ∀ n, R (walk n) (walk (n + 1)) := by
    intro n
    change R (walk n) (next^[n + 1] b)
    rw [Function.iterate_succ_apply']
    exact hR _ (hmem n)
  have hfrom : ∀ n, Relation.ReflTransGen R b (walk n) := by
    intro n
    induction n with
    | zero => exact .refl
    | succ n ih => exact ih.tail (hstep n)
  have hahead : ∀ n k, Relation.TransGen R (walk n) (walk (n + k + 1)) := by
    intro n k
    induction k with
    | zero => exact .single (hstep n)
    | succ k ih => exact ih.tail (hstep _)
  have hfinite : Finite {x // x ∈ S} := List.finite_toSet S
  obtain ⟨i, j, hne, heq⟩ :=
    Finite.exists_ne_map_eq_of_infinite fun n => (⟨walk n, hmem n⟩ : {x // x ∈ S})
  have heq : walk i = walk j := congrArg Subtype.val heq
  rcases Nat.lt_or_gt_of_ne hne with hlt | hlt
  · refine ⟨walk i, hfrom i, ?_⟩
    have hcycle := hahead i (j - i - 1)
    rwa [show i + (j - i - 1) + 1 = j by omega, ← heq] at hcycle
  · refine ⟨walk j, hfrom j, ?_⟩
    have hcycle := hahead j (i - j - 1)
    rwa [show j + (i - j - 1) + 1 = i by omega, heq] at hcycle

end Cycle

variable {α : Type} [Scalar α]

/-- Every kind has a value where the input count fits. -/
theorem BlockKind.evaluate_total {sets : Array (BreakpointSet α)} {tables : Array (Table α)}
    {blocks : Nat} (hgrids : GridsSound sets tables blocks) {k : BlockKind α}
    (hrange : k.InRange sets.size tables.size) (current : α) {xs : List α}
    (hfits : (k.arity tables).accepts xs.length = true) :
    ∃ v, k.evaluate sets tables current xs = .ok v := by
  cases k with
  | normalizer id =>
      obtain ⟨x, rfl⟩ := List.length_eq_one_iff.mp (by simpa [arity, Arity.accepts] using hfits)
      have hset : sets[id.index]? = some sets[id.index] := Array.getElem?_eq_getElem hrange
      obtain ⟨y, hy⟩ := BreakpointSet.normalize_total (hgrids.setValues _ _ hset) x
      exact ⟨y, by simp only [evaluate, hset, hy]⟩
  | lookup id =>
      have ht : tables[id.index]? = some tables[id.index] := Array.getElem?_eq_getElem hrange
      generalize tables[id.index] = t at ht
      have hlength : xs.length = t.rank := by simpa [arity, Arity.accepts, ht] using hfits
      obtain ⟨-, hvalues, -⟩ := hgrids.shape _ t ht
      obtain ⟨v, hv⟩ := Table.interpolate_total hvalues (hgrids.dims_pos ht) hlength
      exact ⟨v, by simp only [evaluate, ht, hv]⟩
  | extremum r =>
      cases r <;> rcases xs with _ | ⟨_, _⟩ <;> simp [evaluate, arity, Arity.accepts] at hfits ⊢
  | connective c => cases c <;> exact ⟨_, rfl⟩
  | _ =>
      rcases xs with _ | ⟨_, _ | ⟨_, _ | ⟨_, _⟩⟩⟩ <;>
        simp [evaluate, arity, Arity.accepts] at hfits ⊢

namespace Model

variable {m m' m₀ : Model α}

/-- The first block, in the order of the arena, whose input count does not fit. -/
def misfit? (m : Model α) : Option BlockId :=
  m.blockIds.find? fun id => (m.block? id).any fun b => !decide (m.Fits b)

/-- The block lies on a loop, or depends on one. -/
def Looped (m : Model α) (id : BlockId) : Prop :=
  ∃ c, Relation.ReflTransGen m.Reads id c ∧ Relation.TransGen m.Reads c c

/-- How the first evaluation of a model ends. -/
inductive Ends (m : Model α) : EStateM.Result (ModelError α) (Model α) Unit → Prop
  | misfit {id : BlockId} {b : Block α} (m' : Model α) : m.misfit? = some id → m.block? id = some b →
      Ends m (.error (.arity b.name b.kind.tag (b.kind.arity m.tables) b.inputs.length) m')
  | loop {stuck : List BlockId} (m' : Model α) : m.misfit? = none →
      (∃ c, Relation.TransGen m.Reads c c) → stuck.Sublist m.blockIds →
      (∀ id ∈ m.blockIds, id ∈ stuck ↔ m.Looped id) → Ends m (.error (.loop (stuck.map m.nameOf)) m')
  | order {l : List BlockId} {m' : Model α} : m.misfit? = none →
      (¬ ∃ c, Relation.TransGen m.Reads c c) → m'.order = some l → m.IsOrder l → Ends m (.ok () m')

omit [Scalar α] in
theorem misfit?_eq_none :
    m.misfit? = none ↔ ∀ id b, m.block? id = some b → m.Fits b := by
  rw [misfit?, List.find?_eq_none]
  constructor
  · intro h id b hb
    have hid := h id (Handle.mem_all.mpr (block?_lt hb))
    simpa [hb] using hid
  · intro h id _
    cases hb : m.block? id with
    | none => simp
    | some b => simpa using h id b hb

omit [Scalar α] in
theorem Ends.ok_of_fits {r : EStateM.Result (ModelError α) (Model α) Unit} (h : m.Ends r)
    (hfits : ∀ id b, m.block? id = some b → m.Fits b) (hloopless : ¬ ∃ c, Relation.TransGen m.Reads c c) :
    ∃ m', r = .ok () m' := by
  have hnone := misfit?_eq_none.mpr hfits
  cases h with
  | misfit m' hid => cases hnone.symm.trans hid
  | loop m' _ hloop => exact absurd hloop hloopless
  | @order l m' => exact ⟨m', rfl⟩

omit [Scalar α] in
theorem Ends.loop_of_fits {r : EStateM.Result (ModelError α) (Model α) Unit} (h : m.Ends r)
    (hfits : ∀ id b, m.block? id = some b → m.Fits b) (hloop : ∃ c, Relation.TransGen m.Reads c c) :
    ∃ names m', r = .error (.loop names) m' := by
  have hnone := misfit?_eq_none.mpr hfits
  cases h with
  | misfit m' hid => cases hnone.symm.trans hid
  | loop m' => exact ⟨_, m', rfl⟩
  | order _ hloopless => exact absurd hloop hloopless

omit [Scalar α] in
theorem misfit?_of_first {pre post : List BlockId} {id : BlockId} {b : Block α}
    (hsplit : m.blockIds = pre ++ id :: post) (hb : m.block? id = some b) (hmisfit : ¬ m.Fits b)
    (hpre : ∀ j ∈ pre, ∃ c, m.block? j = some c ∧ m.Fits c) : m.misfit? = some id := by
  rw [misfit?, List.find?_eq_some_iff_append]
  refine ⟨by simpa [hb] using hmisfit, pre, post, hsplit, fun j hj => ?_⟩
  obtain ⟨c, hc, hfits⟩ := hpre j hj
  simpa [hc] using hfits

theorem nameOf_of_bare (h : m.bare = m'.bare) : m.nameOf = m'.nameOf := by
  funext id
  have hone : ∀ m : Model α, m.nameOf id = m.bare.nameOf id := by
    intro m
    rw [nameOf, nameOf, bare_block?]
    cases m.block? id with
    | none => rfl
    | some b => rfl
  rw [hone m, hone m', h]

namespace Evaluated

variable {done : List BlockId}

theorem idxOf_lt (h : Evaluated m₀ done m) {id p : BlockId} (hid : id ∈ done) (hr : m₀.Reads id p) :
    p ∈ done ∧ done.idxOf p < done.idxOf id :=
  idxOf_lt_of_ordered h.nodup h.ordered hid hr

/-- Whatever a computed block depends on was computed before it. -/
theorem idxOf_lt_of_path (h : Evaluated m₀ done m) {id p : BlockId} (hid : id ∈ done)
    (hpath : Relation.TransGen m₀.Reads id p) : p ∈ done ∧ done.idxOf p < done.idxOf id := by
  induction hpath with
  | single hr => exact h.idxOf_lt hid hr
  | tail _ hr ih =>
      obtain ⟨hp, hlt⟩ := h.idxOf_lt ih.1 hr
      exact ⟨hp, hlt.trans ih.2⟩

/-- A block that has been computed waits for no loop. -/
theorem not_looped (h : Evaluated m₀ done m) {id : BlockId} (hid : id ∈ done) : ¬ m₀.Looped id := by
  rintro ⟨c, hpath, hcycle⟩
  have hc : c ∈ done := by
    rcases Relation.reflTransGen_iff_eq_or_transGen.mp hpath with rfl | hpath
    · exact hid
    · exact (h.idxOf_lt_of_path hid hpath).1
  exact Nat.lt_irrefl _ (h.idxOf_lt_of_path hc hcycle).2

end Evaluated

section Built

/-- Every signal that some block reads has a producer. -/
def Fed (m : Model α) : Prop :=
  ∀ id b, m.block? id = some b → ∀ s ∈ b.inputs, ∃ p, m.producer? s = some p

omit [Scalar α] in
theorem EdgesAgree.block_of_producer (h : m.EdgesAgree) {s : SignalId} {p : BlockId}
    (hp : m.producer? s = some p) : ∃ c, m.block? p = some c ∧ c.output = some s := by
  obtain ⟨x, e, hx, he, rfl⟩ := producer?_eq_some.mp hp
  obtain ⟨-, c, hc, hout⟩ := (h.source s x hx e).mp he
  exact ⟨c, hc, hout⟩

omit [Scalar α] in
theorem EdgesAgree.fed (h : m.EdgesAgree)
    (hsources : ∀ id s, m.signal? id = some s → ∃ e, s.source = some e) : m.Fed := by
  intro id b hb s hs
  obtain ⟨x, hx⟩ := exists_signal (h.inputs id b hb s hs)
  obtain ⟨e, he⟩ := hsources s x hx
  exact ⟨e.block, producer?_eq_some.mpr ⟨x, e, hx, he, rfl⟩⟩

/-- Where the input count fits, a value that cannot be told is that of an input. -/
theorem Sound.inputValues_of_nextValue (hm : m.Sound) {b : Block α}
    (hkind : b.kind.InRange m.breakpoints.size m.tables.size) (hfits : m.Fits b) {e : ModelError α}
    (h : m.nextValue b = .error e) : m.inputValues b.inputs = .error e := by
  rw [nextValue_of_fits hfits] at h
  rcases outcome_bind_error.mp h with hread | ⟨r, hr, h⟩
  · exact hread
  · cases r with
    | none => cases h
    | some xs =>
        have hcount : (b.kind.arity m.tables).accepts xs.length = true := by
          rw [← (inputValues_some.mp hr).length_eq]
          exact hfits
        obtain ⟨v, hv⟩ := BlockKind.evaluate_total hm.grids hkind b.value hcount
        rcases outcome_bind_error.mp h with hfail | ⟨w, -, h⟩
        · cases hv.symm.trans hfail
        · cases h

theorem Evaluated.inRange {done : List BlockId} (h : Evaluated m₀ done m) (hm₀ : m₀.Sound) {id : BlockId}
    {b : Block α} (hb : m₀.block? id = some b) :
    b.kind.InRange m.breakpoints.size m.tables.size := by
  rw [h.breakpoints, h.tables]
  exact hm₀.kinds id b hb

/-- The value of a block can be told where its input count fits, or some input is not current. -/
theorem Evaluated.nextValue_total {done : List BlockId} (h : Evaluated m₀ done m) (hm₀ : m₀.Sound)
    (hfed : m₀.Fed) {id : BlockId} {b : Block α} (hb : m₀.block? id = some b) (hfits : m₀.Fits b) :
    ∃ r, m.nextValue b = .ok r := by
  have hread : ∀ s ∈ b.inputs, ∃ p c, m.producer? s = some p ∧ m.block? p = some c := by
    intro s hs
    obtain ⟨p, hp⟩ := hfed id b hb s hs
    obtain ⟨c, hc, -⟩ := hm₀.edges.block_of_producer hp
    obtain ⟨c', hc', -⟩ := block_of_bare h.bare.symm hc
    exact ⟨p, c', (producer?_of_bare h.bare s).trans hp, hc'⟩
  obtain ⟨xs, hxs⟩ := inputValues_total hread
  cases hvalue : m.nextValue b with
  | ok r => exact ⟨r, rfl⟩
  | error e =>
      have hfail := (h.sound hm₀).inputValues_of_nextValue (h.inRange hm₀ hb) (h.fits_iff.mpr hfits) hvalue
      cases hxs.symm.trans hfail

/-- An order that has been found is one of a graph without loops whose blocks all fit. -/
theorem ends_of_ok (hm : m.Sound) (hnone : m.order = none) {u : Unit}
    (hrun : prepare.run m = .ok u m') : m.Ends (.ok u m') := by
  obtain ⟨l, m₁, hl, hperm, rfl⟩ := prepare_ok hm hnone hrun
  refine .order ?_ ?_ rfl ⟨hperm, hl.ordered⟩
  · refine misfit?_eq_none.mpr fun id b hb => ?_
    obtain ⟨c, -, hc, -, hfits, -⟩ :=
      hl.solved id (hperm.mem_iff.mpr (Handle.mem_all.mpr (block?_lt hb)))
    obtain ⟨b', hb', -, hkind, hslots, -⟩ := block_of_bare hl.bare hc
    cases hb.symm.trans hb'
    rw [Fits, hkind, hslots]
    exact hfits
  · rintro ⟨c, hcycle⟩
    have hc : c ∈ l := by
      obtain ⟨p, ⟨b, s, hb, -⟩, -⟩ := Relation.TransGen.head'_iff.mp hcycle
      exact hperm.mem_iff.mpr (Handle.mem_all.mpr (block?_lt hb))
    exact hl.not_looped hc ⟨c, .refl, hcycle⟩

omit [Scalar α] in
/-- Blocks that all wait for one another lie on a loop or depend on one: a walk along what they read
comes round. -/
theorem looped_of_waiting (hm : m.Sound) {order : List BlockId}
    (hwait : ∀ j ∈ m.blockIds, j ∉ order → ∃ p, m.Reads j p ∧ p ∉ order) :
    ∀ id ∈ m.blockIds.filter (· ∉ order), m.Looped id := by
  intro id hid
  refine exists_cycle ?_ hid
  intro j hj
  obtain ⟨hj, hjnot⟩ := List.mem_filter.mp hj
  obtain ⟨p, hp, hpnot⟩ := hwait j hj (by simpa using hjnot)
  refine ⟨p, List.mem_filter.mpr ⟨?_, by simpa using hpnot⟩, hp⟩
  obtain ⟨b, s, -, -, hproducer⟩ := hp
  obtain ⟨c, hc, -⟩ := hm.edges.block_of_producer hproducer
  exact Handle.mem_all.mpr (block?_lt hc)

/-- How a search for an order fails: where all blocks have been computed but those that wait for a loop; or
on a block whose value cannot be told, which fits or is the first that does not. -/
theorem Sound.search_error (hm : m.Sound) {e : ModelError α} (hrun : prepare.run m = .error e m') :
    (∃ done, Evaluated m.advance done m' ∧
      e = .loop ((m.blockIds.filter (· ∉ done)).map m.nameOf) ∧ m.blockIds.filter (· ∉ done) ≠ [] ∧
      (∀ id ∈ m.blockIds, id ∉ done ↔ m.Looped id) ∧ (∃ c, Relation.TransGen m.Reads c c) ∧
      ∀ id b, m.block? id = some b → m.Fits b) ∨
    ∃ id b done, Evaluated m.advance done m' ∧ m.block? id = some b ∧ m'.nextValue b = .error e ∧
      (m.Fits b ∨ ∃ pre post, m.blockIds = pre ++ id :: post ∧
        ∀ j ∈ pre, ∃ c, m.block? j = some c ∧ m.Fits c) := by
  obtain ⟨-, hpending⟩ := prepare_error hrun
  rcases hm.evaluated_start.schedulePending_error (Handle.nodup_all _)
    (fun id _ => List.not_mem_nil) (fun id hid => Handle.mem_all.mp hid) hpending with
    ⟨done, hdone, -, rfl, hne, hwait, hfits⟩ | hvalue
  · left
    have hlooped := looped_of_waiting hm hwait
    have hnames : m'.nameOf = m.nameOf := nameOf_of_bare hdone.bare
    refine ⟨done, hdone, by rw [hnames]; rfl, hne, ?_, ?_, ?_⟩
    · intro id hid
      constructor
      · exact fun hout => hlooped id (List.mem_filter.mpr ⟨hid, decide_eq_true hout⟩)
      · exact fun hloop hin => hdone.not_looped hin hloop
    · obtain ⟨id, hid⟩ := List.exists_mem_of_ne_nil _ hne
      obtain ⟨c, -, hcycle⟩ := hlooped id hid
      exact ⟨c, hcycle⟩
    · intro id b hb
      obtain ⟨c, hc, hcfits⟩ := hfits id (Handle.mem_all.mpr (block?_lt hb))
      cases hb.symm.trans hc
      exact hcfits
  · exact .inr hvalue

/-- Where what is read is produced, a search for an order ends in one of the three ways. -/
theorem Fed.search_ends (hfed : m.Fed) (hm : m.Sound) (hnone : m.order = none) :
    m.Ends (prepare.run m) := by
  cases hrun : prepare.run m with
  | ok u m' => exact ends_of_ok hm hnone hrun
  | error e m' =>
      rcases hm.search_error hrun with
        ⟨done, -, rfl, -, hwait, hcycle, hfits⟩ | ⟨id, b, done, hdone, hb, hvalue, hfit⟩
      · refine .loop _ (misfit?_eq_none.mpr hfits) hcycle List.filter_sublist fun id hid => ?_
        rw [← hwait id hid, List.mem_filter, decide_eq_true_iff]
        exact and_iff_right hid
      · have hbfits : ¬ m.Fits b := by
          intro hbfits
          obtain ⟨r, hr⟩ := hdone.nextValue_total hm.advance hfed hb hbfits
          cases hr.symm.trans hvalue
        obtain ⟨pre, post, hsplit, hpre⟩ := hfit.resolve_left hbfits
        rw [nextValue_of_not_fits fun hfits => hbfits (hdone.fits_iff.mp hfits), hdone.tables] at hvalue
        cases hvalue
        exact .misfit m' (misfit?_of_first hsplit hb hbfits hpre) hb

/-- So it does where every signal has a source. -/
theorem Sound.search_ends (hm : m.Sound)
    (hfed : ∀ id s, m.signal? id = some s → ∃ e, s.source = some e) (hnone : m.order = none) :
    m.Ends (prepare.run m) :=
  (hm.edges.fed hfed).search_ends hm hnone

theorem order_of_extends (h : Relation.ReflTransGen Extends m m') (hnone : m.order = none) :
    m'.order = none := by
  refine extends_keeps (P := fun n => n.order = none) ?_ h hnone
  rintro n n' (_ | _ | _) -
  · rfl
  · rfl
  · rfl

/-- The first evaluation of a built model, asked for in either way, names the first block whose input
count does not fit; or else names the blocks that wait for a loop; or else finds an order. -/
theorem first_evaluation_ends {d : Draft α} (hd : d.Reachable) (hm : d.build = .ok m)
    {call : ModelCall α} (hcall : call = .prepare ∨ call = .cycle) : m.Ends (call.run.run m) := by
  obtain ⟨m₀, -, hwired, -, hext, hcomplete⟩ := Draft.build_ok hd.sound hm
  have hsound := (Reachable.built hd hm).sound
  have hnone := order_of_extends hext hwired.fresh.2.2.1
  have hends := hsound.search_ends hcomplete.fed hnone
  rcases hcall with rfl | rfl
  · exact hends
  · rw [ModelCall.run, cycle_run_eq_prepare hnone]
    exact hends

/-- A sum of a tabulated value and of the sum itself, fed back through a sign; the sum is doubled behind the
loop. -/
def feedback : Draft Float :=
  .after "feedback"
    [ .breakpoints "A" [0, 1], .table (some "T") ["A"] #[5, 7],
      .signal ((Signal.declare "U" "u" "").withRole .input), .signal (Signal.declare "V" "v" ""),
      .signal (Signal.declare "X" "x" ""), .signal (Signal.declare "Y" "y" ""),
      .signal (Signal.declare "Z" "z" ""), .function "curve" "T" ["U"] "V",
      .block "sum" .sum, .input ⟨2⟩ 0 (.variable "V"), .input ⟨2⟩ 1 (.variable "Y"),
      .output ⟨2⟩ (.variable "X"),
      .block "sign" .minus, .input ⟨3⟩ 0 (.variable "X"), .output ⟨3⟩ (.variable "Y"),
      .block "double" .sum, .input ⟨4⟩ 0 (.variable "X"), .input ⟨4⟩ 1 (.variable "X"),
      .output ⟨4⟩ (.variable "Z") ]

/-- The table has been read by then; the block behind the loop waits as those on it do, and so does what
shows its output. -/
theorem feedback_first_evaluation :
    ∃ (m m' : Model Float) (stuck : List BlockId), feedback.build = .ok m ∧
      cycle.run m = .error (.loop ["sum", "sign", "double", "Z_output"]) m' ∧
      stuck.map m.nameOf = ["sum", "sign", "double", "Z_output"] ∧
      (∀ id ∈ m.blockIds, id ∈ stuck ↔ m.Looped id) ∧ ∃ c, Relation.TransGen m.Reads c c := by
  have hruns : feedback.build.toOption.any (fun m : Model Float =>
      match cycle.run m with
      | .error (.loop names) _ => names == ["sum", "sign", "double", "Z_output"]
      | _ => false) = true := by decide +kernel
  obtain ⟨m, hm, hrun⟩ := outcome_of_any hruns
  have hends := first_evaluation_ends (Draft.reachable_after _ _) hm (.inr rfl)
  rw [ModelCall.run] at hends
  split at hrun
  · rename_i names m' hcycle
    have hnames := beq_iff_eq.mp hrun
    rw [hcycle] at hends
    cases hends with
    | @loop stuck m' hfits hloop hsublist hlooped =>
        exact ⟨m, m', stuck, hm, hnames ▸ hcycle, hnames, hlooped, hloop⟩
  · cases hrun

end Built

end Model

end BlockDiagram
