import BlockDiagram.Proofs.Document.Agreement
import BlockDiagram.Proofs.Document.Compilation
import BlockDiagram.Proofs.Document.Fault
import BlockDiagram.Proofs.Document.Misfits
/-! Diagnosis: what the first evaluation of the model of a document says about the document. It names the
block of the first operator that has a wrong number of arguments; if there is none, it fails on a loop
just if some variable depends on itself; else it finds an order. -/

namespace BlockDiagram

open Call Draft

variable {α : Type}

namespace Model

variable {m m' : Model α}

/-- The block that block `p` depends on by way of the slots that the path lists. -/
def walk? (m : Model α) : BlockId → List Nat → Option BlockId
  | p, [] => some p
  | p, k :: path => do
    let b ← m.block? p
    let id ← b.inputs[k]?
    let q ← m.producer? id
    m.walk? q path

/-- The block made for the operator to which the path leads. The signals of the variables of a document are
the first ones of its model, in the order of their declaration, and a limiter comes behind them. -/
def madeFor? (m : Model α) : List Nat → Option BlockId
  | [] => none
  | i :: path => (m.producer? ⟨i⟩).bind fun p => m.walk? p path

/-- The blocks that completion has added fit, and look nothing up. -/
theorem auxiliary_of_extends [Scalar α] (hext : Relation.ReflTransGen Extends m m') {p : BlockId}
    (hp : m.blocks.size ≤ p.index) {c : Block α} (hc : m'.block? p = some c) : c.Auxiliary := by
  induction hext generalizing c with
  | refl => exact absurd (block?_lt hc) (Nat.not_lt.mpr hp)
  | tail _ hstep ih =>
      rcases hstep.block_cases hc with ⟨b, hb, hkind, hlength⟩ | ⟨-, hnew⟩
      · rw [Block.Auxiliary, hkind, hlength]
        exact ih hb
      · exact hnew

end Model

namespace Draft

variable [Scalar α] {d : Draft α} {w m : Model α} {holder : SignalId → SignalId}

omit [Scalar α] in
theorem resolveSlots_length {block : String} {slot : Nat} {rs : List (Option Reference)}
    {ids : List SignalId} (h : d.resolveSlots block slot rs = .ok ids) : ids.length = rs.length := by
  induction rs generalizing slot ids with
  | nil =>
      cases h
      rfl
  | cons r rs ih =>
      cases r with
      | none => cases h
      | some r =>
          obtain ⟨id, -, h⟩ := outcome_bind_ok.mp h
          obtain ⟨rest, hrest, h⟩ := outcome_bind_ok.mp h
          cases h
          rw [List.length_cons, List.length_cons, ih hrest]

section Built

variable (hw : d.Wired d.blocks.toList w) (hext : Relation.ReflTransGen Model.Extends w m)
  (hholder : w.Completed m holder)
include hw hext hholder

/-- A block of the built model is one of the draft, or completion has added it. -/
theorem built_block_cases {p : BlockId} {c : Block α} (hc : m.block? p = some c) :
    (∃ b, d.blocks[p.index]? = some b ∧ c.kind = b.kind ∧ c.inputs.length = b.inputs.length) ∨
      d.blocks.size ≤ p.index ∧ c.Auxiliary := by
  rcases Nat.lt_or_ge p.index d.blocks.size with hp | hp
  · have hb : d.blocks[p.index]? = some d.blocks[p.index] := Array.getElem?_eq_getElem hp
    obtain ⟨b, hb', hres⟩ := hw.blocks p.index _ (by rw [Array.getElem?_toList]; exact hb)
    obtain ⟨c', hc', hkind, hinputs, -⟩ := hholder.blocks p b hb'
    cases hc.symm.trans hc'
    refine .inl ⟨_, hb, hkind.trans hres.kind, ?_⟩
    rw [hinputs, List.length_map, resolveSlots_length hres.inputs]
  · refine .inr ⟨hp, Model.auxiliary_of_extends hext ?_ hc⟩
    rw [hw.size, Array.length_toList]
    exact hp

/-- The blocks of the built model that do not fit are those of the draft. -/
theorem misfitAt_eq (p : BlockId) :
    ((m.block? p).any fun c => !decide (m.Fits c)) = d.misfitAt p.index := by
  have htables : m.tables = d.tables := (Model.grids_of_extends hext).2.trans hw.fresh.2.1
  cases hc : m.block? p with
  | some c =>
      rcases built_block_cases hw hext hholder hc with ⟨b, hb, hkind, hlength⟩ | ⟨hp, -, haccepts⟩
      · simp [misfitAt, hb, Model.Fits, hkind, hlength, htables]
      · simp [misfitAt, Array.getElem?_eq_none hp, Model.Fits, haccepts m.tables]
  | none =>
      have hnone : d.blocks[p.index]? = none := by
        by_contra hsome
        obtain ⟨b, hb⟩ := Option.ne_none_iff_exists'.mp hsome
        obtain ⟨b', hb', -⟩ := hw.blocks p.index b (by rw [Array.getElem?_toList]; exact hb)
        obtain ⟨c, hc', -⟩ := hholder.blocks p b' hb'
        cases hc.symm.trans hc'
      simp [misfitAt, hnone]

theorem built_misfit?_eq :
    m.misfit? = ((List.range m.blocks.size).find? d.misfitAt).map Handle.mk := by
  have hsame : (fun p : BlockId => (m.block? p).any fun c => !decide (m.Fits c)) =
      fun p => d.misfitAt p.index := funext (misfitAt_eq hw hext hholder)
  rw [Model.misfit?, hsame, Model.blockIds, Handle.all, List.find?_map]
  rfl

theorem built_fits (h : ∀ p, d.misfitAt p = false) : m.misfit? = none := by
  rw [built_misfit?_eq hw hext hholder, Option.map_eq_none_iff, List.find?_eq_none]
  intro p _
  rw [h p]
  exact Bool.false_ne_true

theorem built_misfit {q : Nat} (hq : d.misfitAt q = true) (hbefore : ∀ p < q, d.misfitAt p = false) :
    m.misfit? = some ⟨q⟩ := by
  have hmisfit := (misfitAt_eq hw hext hholder ⟨q⟩).trans hq
  obtain ⟨c, hc, -⟩ := (Option.any_eq_true _ _).mp hmisfit
  have hfind : (List.range m.blocks.size).find? d.misfitAt = some q :=
    List.find?_range_eq_some.mpr
      ⟨hq, List.mem_range.mpr (Model.block?_lt hc), fun p hp => by simp [hbefore p hp]⟩
  rw [built_misfit?_eq hw hext hholder, hfind]
  rfl

omit hext in
/-- A way through the draft is one through the built model. -/
theorem Leads.walk? [Unbounded α] (hd : d.Sound) (hm : m.EdgesAgree) {i j : Nat} {path : List Nat}
    (h : d.Leads i path j) : m.walk? ⟨i⟩ path = some ⟨j⟩ := by
  induction h with
  | here i => rfl
  | @down i q j k path kind kind' ws us v u hputs hu hderived hputs' hrest ih =>
      obtain ⟨c, id, ids, hc, -, hslots, -, -, hids⟩ := hw.completed_puts hd hholder hputs
      obtain ⟨c', id', ids', hc', -, -, hout', hid', -⟩ := hw.completed_puts hd hholder hputs'
      have hslot : c.inputs[k]? = some id' := by
        obtain ⟨hk, hget⟩ := List.getElem?_eq_some_iff.mp hu
        have hk' : k < ids.length := hids.length_eq ▸ hk
        have hid : d.signalId? u = some ids[k] := hget ▸ hids.get hk hk'
        cases hid.symm.trans hid'
        rw [hslots, List.getElem?_map, List.getElem?_eq_getElem hk', Option.map_some,
          hw.holder_of_derived hd hholder hderived hid]
      have hproducer : m.producer? id' = some ⟨q⟩ := hm.producer?_of_output hc' hout'
      simp only [Model.walk?, Option.bind_eq_bind, hc, Option.bind_some, hslot, hproducer, ih]

end Built

end Draft

namespace Document

variable {doc : Document α} {d : Draft α} {w m : Model α}

variable [Scalar α]

/-- The block that has been made for an operator is found at the end of its path. -/
theorem MadeFor.built [Unbounded α] {holder : SignalId → SignalId} (hlowered : doc.Lowered d)
    (harranged : doc.Arranged d) (hw : d.Wired d.blocks.toList w) (hholder : w.Completed m holder)
    (hm : m.EdgesAgree) {q : Nat} {a : Application} (h : doc.MadeFor d q a) :
    m.madeFor? a.path = some ⟨q⟩ ∧
      ∃ c, m.block? ⟨q⟩ = some c ∧ c.kind = a.op.kind ∧ c.inputs.length = a.count := by
  have hd := hlowered.sound
  obtain ⟨n, path, v, f, ws, p, k, hpath, hv, hrooted, hleads, us, u, hputs, hcount⟩ := h
  constructor
  · obtain ⟨c, id, -, hc, -, -, hout, hid, -⟩ := hw.completed_puts hd hholder hrooted.root
    have hfirst : d.signalId? v.varId = some ⟨n⟩ :=
      (signalId?_eq_some hd).mpr ⟨v.signal, harranged.signals n v hv, rfl⟩
    cases hid.symm.trans hfirst
    rw [hpath, Model.madeFor?, hm.producer?_of_output hc hout, Option.bind_some]
    exact hleads.walk? hw hholder hd hm
  · obtain ⟨c, id, ids, hc, hkind, hslots, -, -, hids⟩ := hw.completed_puts hd hholder hputs
    refine ⟨c, hc, hkind, ?_⟩
    rw [hslots, List.length_map, ← hids.length_eq, hcount]

/-- How the first evaluation of the model of a document ends, told from the document. -/
inductive Diagnosed (doc : Document α) (m : Model α) : EStateM.Result (ModelError α) (Model α) Unit → Prop
  | misfit {a : Application} {p : BlockId} {b : Block α} (m' : Model α) : doc.misfit? = some a →
      m.madeFor? a.path = some p → m.block? p = some b →
      Diagnosed doc m
        (.error (.arity b.name (a.op.kind : BlockKind α).tag a.op.arity a.count) m')
  | loop (stuck : List String) (m' : Model α) : doc.misfit? = none → doc.Cyclic →
      Diagnosed doc m (.error (.loop stuck) m')
  | order (m' : Model α) : doc.misfit? = none → ¬ doc.Cyclic → Diagnosed doc m (.ok () m')

omit [Scalar α] in
/-- How the search for an order ends, once the first misfit of the model and the loops of its graph are
known from the document. -/
theorem diagnosed_of_ends {r : EStateM.Result (ModelError α) (Model α) Unit} (h : m.Ends r)
    (hfits : doc.misfit? = none → m.misfit? = none)
    (hmade : ∀ a, doc.misfit? = some a → ∃ q, m.misfit? = some q ∧ m.madeFor? a.path = some q ∧
      ∃ c, m.block? q = some c ∧ c.kind = a.op.kind ∧ c.inputs.length = a.count)
    (hloop : (∃ c, Relation.TransGen m.Reads c c) ↔ doc.Cyclic) : doc.Diagnosed m r := by
  cases hmisfit : doc.misfit? with
  | some a =>
      obtain ⟨q, hq, hpath, c, hc, hkind, hcount⟩ := hmade a hmisfit
      cases h with
      | @misfit id b m' hid hb =>
          cases hq.symm.trans hid
          cases hc.symm.trans hb
          rw [hkind, hcount, a.op.kind_arity]
          exact .misfit m' hmisfit hpath hc
      | loop m' hid => cases hq.symm.trans hid
      | order hid => cases hq.symm.trans hid
  | none =>
      have hnone := hfits hmisfit
      cases h with
      | misfit m' hid => cases hnone.symm.trans hid
      | loop m' _ hcycle => exact .loop _ m' hmisfit (hloop.mp hcycle)
      | order _ hno => exact .order _ hmisfit fun hcyclic => hno (hloop.mpr hcyclic)

theorem diagnosed [Unbounded α] (hdoc : doc.Valid) (hbuild : doc.build = .ok m) :
    doc.Diagnosed m (Model.prepare.run m) := by
  obtain ⟨d, hdraft, hbuild⟩ := build_ok hbuild
  have hlowered := lowered_of_draft hdoc hdraft
  have harranged := arranged_of_draft hdoc hdraft
  obtain ⟨hsound, -⟩ := built_sound_complete hlowered.sound hbuild
  obtain ⟨w, -, hw, -, hext, hcomplete⟩ := Draft.build_ok hlowered.sound hbuild
  obtain ⟨holder, hholder⟩ := Model.exists_holder hext hcomplete
  obtain ⟨hnone, hsome⟩ := first_misfit hlowered harranged hw
  have hends := hsound.search_ends hcomplete.fed (Model.order_of_extends hext hw.fresh.2.2.1)
  refine diagnosed_of_ends hends (fun h => built_fits hw hext hholder (hnone h)) ?_
    (loop_iff_cyclic hdoc hdraft hbuild)
  intro a ha
  obtain ⟨q, hq, hbefore, hfor⟩ := hsome a ha
  exact ⟨⟨q⟩, built_misfit hw hext hholder hq hbefore,
    hfor.built hlowered harranged hw hholder hsound.edges⟩

omit [Scalar α] in
theorem Diagnosed.succeeds_iff {r : EStateM.Result (ModelError α) (Model α) Unit}
    (h : doc.Diagnosed m r) : (∃ m', r = .ok () m') ↔ doc.misfit?.isSome = false ∧ ¬ doc.Cyclic := by
  cases h with
  | misfit m' hmisfit => simp [hmisfit]
  | loop stuck m' hmisfit hcyclic => simp [hcyclic]
  | order m' hmisfit hno => simp [hmisfit, hno]

/-- The first evaluation of the model of a valid document names the block that has been made for the first
operator with a wrong number of arguments, in the order of the variables and of the places in their
formulas, if there is one; else it fails on a loop just if some variable depends on itself; else it finds
an order. Limits, roles, initial values, grid data and the order of declaration have no say in whether it
succeeds. -/
theorem initialization_diagnosed [Unbounded α] (hdoc : doc.check = .ok ()) (hbuild : doc.build = .ok m) :
    doc.Diagnosed m (Model.prepare.run m) ∧
    ∀ (doc' : Document α) (n : Model α), doc'.check = .ok () → doc'.build = .ok n →
      doc.SameDefinitions doc' →
      ((∃ m', Model.prepare.run m = .ok () m') ↔ ∃ n', Model.prepare.run n = .ok () n') := by
  have hdiagnosed := diagnosed (check_ok hdoc) hbuild
  refine ⟨hdiagnosed, ?_⟩
  intro doc' n hdoc' hbuild' hsame
  have hmisfit : doc.misfit?.isSome = doc'.misfit?.isSome :=
    Bool.eq_iff_iff.mpr ⟨hsame.misfit, hsame.symm.misfit⟩
  have hcyclic : doc.Cyclic ↔ doc'.Cyclic := ⟨hsame.cyclic, hsame.symm.cyclic⟩
  rw [hdiagnosed.succeeds_iff, (diagnosed (check_ok hdoc') hbuild').succeeds_iff, hmisfit, hcyclic]

/-- The definitions of `gauge` in the opposite order, without limits, roles and initial values. -/
def plainGauge : Document Float :=
  { gauge with vars := gauge.vars.reverse.map fun v => { varId := v.varId, calculation := v.calculation } }

theorem gauge_same_definitions : gauge.SameDefinitions plainGauge where
  formulas := (List.reverse_perm _).symm
  functions := .refl _

/-- An order is found for `gauge`, and so no variable of it depends on itself, and one for `plainGauge`. -/
theorem gauge_diagnosed : ∃ m n m' n', gauge.build = .ok m ∧ plainGauge.build = .ok n ∧
    Model.prepare.run m = .ok () m' ∧ Model.prepare.run n = .ok () n' ∧ gauge.misfit? = none ∧
    ¬ gauge.Cyclic := by
  have hvalid : gauge.check.toOption.any (fun _ => true) = true := by decide +kernel
  have hplain : plainGauge.check.toOption.any (fun _ => true) = true := by decide +kernel
  have hruns : gauge.build.toOption.any (fun m => (Model.prepare.run m) matches .ok _ _) = true := by
    decide +kernel
  have hbuilds : plainGauge.build.toOption.any (fun _ => true) = true := by decide +kernel
  obtain ⟨u, hcheck, -⟩ := outcome_of_any hvalid
  obtain ⟨v, hcheck', -⟩ := outcome_of_any hplain
  obtain ⟨m, hm, hrun⟩ := outcome_of_any hruns
  obtain ⟨n, hn, -⟩ := outcome_of_any hbuilds
  obtain ⟨hdiagnosed, hagree⟩ := initialization_diagnosed hcheck hm
  split at hrun
  · rename_i u m' hok
    obtain ⟨n', hok'⟩ := (hagree plainGauge n hcheck' hn gauge_same_definitions).mp ⟨m', hok⟩
    rw [hok] at hdiagnosed
    cases hdiagnosed with
    | order m' hmisfit hno => exact ⟨m, n, m', n', hm, hn, hok, hok', hmisfit, hno⟩
  · cases hrun

end Document

end BlockDiagram
