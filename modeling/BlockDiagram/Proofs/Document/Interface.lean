import BlockDiagram.Proofs.Document.Compilation
import BlockDiagram.Proofs.Document.Ends
import BlockDiagram.Proofs.Model.Interface
/-! Interface: the inputs and outputs of the model of a document, as the declarations of the document tell
them. What lowering derives is neither. -/

namespace BlockDiagram

open Call Draft

variable {α : Type} [Scalar α]

namespace Document

/-- A limit of the variable is finite. -/
def Variable.isBounded (v : Variable α) : Bool :=
  v.min.any Arithmetic.isFinite || v.max.any Arithmetic.isFinite

section Records

variable (doc : Document α)

/-- Nothing defines the variable, and it has the role of an input or no initial value. -/
def isOpen (v : Variable α) : Bool :=
  !doc.isDefined v &&
    (v.initial.isNone || (v.roles.input || v.roles.control || v.roles.disturbance))

/-- The variable has the role of an output, or nothing mentions it. -/
def isExposed (v : Variable α) : Bool := !doc.isMentioned v.varId || v.roles.output

/-- The input records of the model: the open variables in the order of their declaration, under the names
they have in front of their limiters. -/
def inputRecords (taken : List String) : List (Record α) :=
  ((doc.vars.zip (Signal.fronts taken (doc.vars.map Variable.signal))).filter
    fun p => doc.isOpen p.1).map fun p => p.2.atInput

/-- The output records of the model: the exposed variables in the order of their declaration, those without
a finite limit in front of those with one. -/
def outputRecords : List (Record α) :=
  (doc.vars.filter fun v => doc.isExposed v && !v.isBounded).map (fun v => v.signal.atOutput) ++
    (doc.vars.filter fun v => doc.isExposed v && v.isBounded).map fun v => v.signal.atOutput

end Records

variable {doc : Document α} {d : Draft α} {w m : Model α} {v : Variable α} {t : Signal α}

/-- The signal has been declared for the variable, and wired at the ends that the document gives it. -/
structure Tied (doc : Document α) (v : Variable α) (t : Signal α) : Prop where
  declared : t.unwired = v.signal
  source : t.source.isNone = !doc.isDefined v
  sinks : t.sinks.isEmpty = !doc.isMentioned v.varId

namespace Tied

theorem eq_signal (h : doc.Tied v t) : t = { v.signal with source := t.source, sinks := t.sinks } := by
  rw [← h.declared]
  rfl

theorem isOpen_eq (h : doc.Tied v t) : t.isOpen = doc.isOpen v := by
  rw [Signal.isOpen, h.source, h.eq_signal]
  rfl

theorem isExposed_eq (h : doc.Tied v t) : t.isExposed = doc.isExposed v := by
  rw [Signal.isExposed, h.sinks, h.eq_signal]
  rfl

theorem needsLimiter_eq (h : doc.Tied v t) : t.needsLimiter = v.signal.needsLimiter := by
  rw [← t.needsLimiter_unwired, h.declared]

theorem varId_eq (h : doc.Tied v t) : t.varId = v.varId := (congrArg Signal.varId h.declared :)

end Tied

section Wired

variable (hdraft : doc.draft = .ok d) (hlowered : doc.Lowered d) (harranged : doc.Arranged d)
  (hw : d.Wired d.blocks.toList w)
include hlowered hw

include harranged in
theorem tied_signals : List.Forall₂ doc.Tied doc.vars (w.signals.toList.take doc.vars.length) := by
  have hd := hlowered.sound
  have hsignal : ∀ (i : Nat) (v : Variable α), doc.vars[i]? = some v →
      ∃ t, w.signals[i]? = some t ∧ doc.Tied v t := by
    intro i v hv
    have hs : d.signals[(⟨i⟩ : SignalId).index]? = some v.signal := harranged.signals i v hv
    obtain ⟨t, ht, hsame⟩ := hw.exists_signal hs
    have hin := List.mem_of_getElem? hv
    have hvarId : t.varId = v.varId := (congrArg Signal.varId hsame :)
    refine ⟨t, ht, hsame, ?_, ?_⟩
    · rw [Bool.eq_iff_iff, Option.isNone_iff_eq_none, hw.source_isNone_iff hd ht, hvarId,
        hlowered.produced_iff harranged hin]
      simp
    · rw [Bool.eq_iff_iff, List.isEmpty_iff, hw.sinks_eq_nil_iff hd ht, hvarId,
        hlowered.consumed_iff harranged hw hin]
      simp
  have hle : doc.vars.length ≤ w.signals.toList.length := by
    refine Nat.le_of_not_lt fun hlt => ?_
    obtain ⟨t, ht, -⟩ := hsignal _ _ (List.getElem?_eq_getElem hlt)
    exact absurd (Array.getElem?_eq_some_iff.mp ht).1 (by simp)
  refine List.forall₂_iff_get.mpr ⟨by rw [List.length_take, Nat.min_eq_left hle], fun i hi hi' => ?_⟩
  obtain ⟨t, ht, htied⟩ := hsignal i _ (List.getElem?_eq_getElem hi)
  rw [← Array.getElem?_toList] at ht
  rw [List.get_eq_getElem, List.get_eq_getElem, List.getElem_take,
    (List.getElem?_eq_some_iff.mp ht).2]
  exact htied

include hdraft in
/-- What lowering has derived is neither open nor exposed. -/
theorem derived_signals : ∀ t ∈ w.signals.toList.drop doc.vars.length,
    t.isOpen = false ∧ t.isExposed = false := by
  have hd := hlowered.sound
  intro t ht
  obtain ⟨j, hj⟩ := List.mem_iff_getElem?.mp ht
  rw [List.getElem?_drop, Array.getElem?_toList] at hj
  have ht : w.signal? ⟨doc.vars.length + j⟩ = some t := hj
  obtain ⟨v, hv, hproduced, hconsumed⟩ :=
    backed_of_draft hdraft _ _ (Nat.le_add_right _ j) (hw.signal? ht)
  have hvarId : t.varId = v := (congrArg Signal.varId hv :)
  have houtput : t.roles.output = false := (congrArg (fun s => s.roles.output) hv :)
  constructor
  · cases hsource : t.source with
    | none =>
        have hopen := (hw.source_isNone_iff hd ht).mp hsource
        rw [hvarId] at hopen
        exact absurd (hproduced.resolve_left List.not_mem_nil) hopen
    | some e => rw [Signal.isOpen, hsource]; rfl
  · cases hsinks : t.sinks with
    | nil =>
        have hfree := (hw.sinks_eq_nil_iff hd ht).mp hsinks
        rw [hvarId] at hfree
        exact absurd (hconsumed.resolve_left List.not_mem_nil) hfree
    | cons e es => rw [Signal.isExposed, hsinks, houtput]; rfl

end Wired

/-- The signals of the wired model in front of their limiters, and the declarations they go back to. -/
theorem fronts_records {ts rs : List (Signal α)} {vs : List (Variable α)} {taken : List String}
    (h : List.Forall₂ doc.Tied vs ts) (hrs : ∀ t ∈ rs, t.isOpen = false) :
    ((Signal.fronts taken (ts ++ rs)).filter Signal.isOpen).map Signal.atInput =
      ((vs.zip (Signal.fronts taken (vs.map Variable.signal))).filter fun p => doc.isOpen p.1).map
        fun p => p.2.atInput := by
  induction h generalizing taken with
  | nil =>
      rw [List.nil_append, Signal.fronts_closed hrs]
      rfl
  | @cons v t vs ts hvt _ ih =>
      have hsame := hvt.eq_signal
      rw [List.cons_append, List.map_cons]
      cases hneed : t.needsLimiter with
      | true =>
          rw [Signal.fronts_cons_limited taken hneed,
            Signal.fronts_cons_limited taken (hvt.needsLimiter_eq ▸ hneed), List.zip_cons_cons,
            hvt.varId_eq]
          refine map_filter_cons hvt.isOpen_eq ?_ ih
          rw [hsame]
          rfl
      | false =>
          rw [Signal.fronts_cons_free taken hneed,
            Signal.fronts_cons_free taken (hvt.needsLimiter_eq ▸ hneed), List.zip_cons_cons]
          refine map_filter_cons hvt.isOpen_eq ?_ ih
          rw [hsame]
          rfl

theorem exposed_records [Unbounded α] {ts rs : List (Signal α)} {vs : List (Variable α)}
    (h : List.Forall₂ doc.Tied vs ts) (hrs : ∀ t ∈ rs, t.isExposed = false) (side : Bool → Bool) :
    ((ts ++ rs).filter fun t => t.isExposed && side t.needsLimiter).map Signal.atOutput =
      (vs.filter fun v => doc.isExposed v && side v.isBounded).map fun v => v.signal.atOutput := by
  have hnone : (rs.filter fun t => t.isExposed && side t.needsLimiter) = [] :=
    List.filter_eq_nil_iff.mpr fun t ht => by simp [hrs t ht]
  rw [List.filter_append, hnone, List.append_nil]
  refine (map_filter_of_forall₂ h fun v t hvt => ⟨?_, ?_⟩).symm
  · rw [hvt.isExposed_eq, hvt.needsLimiter_eq, v.needsLimiter_signal]
    rfl
  · rw [hvt.eq_signal]
    rfl

section Names

omit [Scalar α] in
theorem nodup_append_filter {vs : List (Variable α)} {p q : Variable α → Bool}
    (h : (vs.map Variable.varId).Nodup) (hpq : ∀ v, p v = true → q v = true → False) :
    ((vs.filter p ++ vs.filter q).map Variable.varId).Nodup := by
  rw [List.map_append]
  have hpart : ∀ r : Variable α → Bool, ((vs.filter r).map Variable.varId).Nodup := fun r =>
    h.sublist (List.filter_sublist.map _)
  refine List.nodup_append.mpr ⟨hpart p, hpart q, ?_⟩
  intro a ha b hb heq
  obtain ⟨x, hx, rfl⟩ := List.mem_map.mp ha
  obtain ⟨y, hy, hxy⟩ := List.mem_map.mp hb
  obtain ⟨hxin, hpx⟩ := List.mem_filter.mp hx
  obtain ⟨hyin, hqy⟩ := List.mem_filter.mp hy
  cases List.inj_on_of_nodup_map h hxin hyin (heq.trans hxy.symm)
  exact hpq x hpx hqy

theorem outputRecords_varIds (doc : Document α) : doc.outputRecords.map Record.varId =
    ((doc.vars.filter fun v => doc.isExposed v && !v.isBounded) ++
      doc.vars.filter fun v => doc.isExposed v && v.isBounded).map Variable.varId := by
  simp only [outputRecords, List.map_append, List.map_map]
  rfl

/-- The IDs of the input records are among those that the signals have in front of their limiters. -/
theorem inputRecords_varIds (doc : Document α) (taken : List String) :
    ((doc.inputRecords taken).map Record.varId).Sublist
      ((Signal.fronts taken (doc.vars.map Variable.signal)).map Signal.varId) := by
  have hsnd : (doc.vars.zip (Signal.fronts taken (doc.vars.map Variable.signal))).map Prod.snd =
      Signal.fronts taken (doc.vars.map Variable.signal) :=
    List.map_snd_zip (by rw [Signal.length_fronts, List.length_map])
  have hall := congrArg (List.map Signal.varId) hsnd
  rw [List.map_map] at hall
  rw [inputRecords, List.map_map, ← hall]
  exact List.filter_sublist.map _

end Names

/-- The interface of the model of a valid document. Each open variable is an input, in the order of the
declarations, at its initial value or zero, and under a fresh ID if it has a finite limit. Each exposed
variable is an output under its own ID, those without a finite limit first. Both list each ID once, and
nothing that lowering has derived. -/
theorem interface_of_document [Unbounded α] (hdoc : doc.check = .ok ()) (hbuild : doc.build = .ok m) :
    ∃ d, doc.draft = .ok d ∧ m.inputVector = doc.inputRecords d.varIds ∧
      m.outputVector = doc.outputRecords ∧ (m.inputVector.map Record.varId).Nodup ∧
      (m.outputVector.map Record.varId).Nodup ∧
      ∀ v, d.Derived v →
        v ∉ m.inputVector.map Record.varId ∧ v ∉ m.outputVector.map Record.varId := by
  obtain ⟨d, hdraft, hbuild⟩ := build_ok hbuild
  have hvalid := check_ok hdoc
  have hlowered := lowered_of_draft hvalid hdraft
  have harranged := arranged_of_draft hvalid hdraft
  have hd := hlowered.sound
  obtain ⟨w, -, hw, hrun, -, -⟩ := Draft.build_ok hd hbuild
  obtain ⟨hnoinputs, hnooutputs⟩ := harranged.lists_nil hw
  obtain ⟨hinputs, houtputs⟩ := Model.complete_interface hw.edges hw.enrolled hnoinputs hnooutputs
    hw.fresh.2.2.2.2 hrun
  have htied := tied_signals hlowered harranged hw
  have hderived := derived_signals hdraft hlowered hw
  rw [← List.take_append_drop doc.vars.length w.signals.toList] at hinputs houtputs
  rw [fronts_records htied fun t ht => (hderived t ht).1,
    Signal.fronts_congr fun _ => hw.mem_varIds] at hinputs
  have hlast := exposed_records htied (fun t ht => (hderived t ht).2) id
  rw [exposed_records htied (fun t ht => (hderived t ht).2) not] at houtputs
  have hin : m.inputVector = doc.inputRecords d.varIds := hinputs
  have hout : m.outputVector = doc.outputRecords := houtputs.trans (congrArg _ hlast)
  have hdeclared : ∀ v ∈ (doc.vars.map Variable.signal).map Signal.varId, v ∈ d.varIds ∧ ¬ d.Derived v := by
    intro v hv
    rw [List.map_map] at hv
    obtain ⟨x, hx, rfl⟩ := List.mem_map.mp hv
    obtain ⟨i, hi⟩ := hlowered.signals x hx
    exact ⟨mem_varIds.mpr ⟨i, _, hi, rfl⟩, harranged.not_derived hd hx⟩
  refine ⟨d, hdraft, hin, hout, ?_, ?_, fun v hv => ⟨fun hmem => ?_, fun hmem => ?_⟩⟩
  · rw [hin]
    refine (Signal.nodup_fronts ?_ fun v hv => (hdeclared v hv).1).sublist (inputRecords_varIds doc _)
    rw [List.map_map]
    exact hvalid.vars
  · rw [hout, outputRecords_varIds]
    refine nodup_append_filter hvalid.vars fun v hfree hbounded => ?_
    rw [(Bool.and_eq_true_iff.mp hbounded).2] at hfree
    exact Bool.false_ne_true ((Bool.and_eq_true_iff.mp hfree).2)
  · obtain ⟨i, hi⟩ := hv
    rw [hin] at hmem
    rcases Signal.mem_fronts ((inputRecords_varIds doc _).subset hmem) with hnot | hin
    · exact hnot (mem_varIds.mpr ⟨i, _, hi, rfl⟩)
    · exact (hdeclared v hin).2 ⟨i, hi⟩
  · rw [hout, outputRecords_varIds] at hmem
    obtain ⟨x, hx, rfl⟩ := List.mem_map.mp hmem
    have hin : x ∈ doc.vars := by
      rcases List.mem_append.mp hx with hx | hx
      · exact (List.mem_filter.mp hx).1
      · exact (List.mem_filter.mp hx).1
    exact harranged.not_derived hd hin hv

/-- A limited input that is an output as well, a free input, a formula, a constant, and a limited variable
that a function gives. -/
def panel : Document Float where
  version := 1
  name := "panel"
  vars :=
    [ { varId := "b", max := some 5, initial := some 2, roles := { control := true, output := true } },
      { varId := "a" }, { varId := "c", calculation := some (.apply .plus [.name "a", .number 1]) },
      { varId := "k", initial := some 7 }, { varId := "e", min := some 0 } ]
  breakpoints := [{ id := "grid", values := [0, 1] }]
  functions := [{ name := "f", inputs := ["a"], output := "e", table := .own ["grid"] [10, 20] }]

/-- Neither the normalizer of the function nor the literal of the formula shows at the interface. -/
theorem interface_of_panel :
    ∃ (d : Draft Float) (m : Model Float), panel.draft = .ok d ∧ panel.build = .ok m ∧
      m.inputVector = panel.inputRecords d.varIds ∧ m.outputVector = panel.outputRecords ∧
      (m.inputVector.map fun r => (r.varId, r.value)) = [("b_unlim", 2), ("a", 0)] ∧
      m.outputVector.map Record.varId = ["c", "k", "b", "e"] ∧
      ∀ v, d.Derived v →
        v ∉ m.inputVector.map Record.varId ∧ v ∉ m.outputVector.map Record.varId := by
  have hvalid : panel.check.toOption.any (fun _ => true) = true := by decide +kernel
  have hbuilds : panel.build.toOption.any (fun _ => true) = true := by decide +kernel
  have hdrafts : panel.draft.toOption.any (fun d =>
      decide (((panel.inputRecords d.varIds).map fun r => (r.varId, r.value)) =
        [("b_unlim", 2), ("a", 0)])) = true := by decide +kernel
  obtain ⟨u, hcheck, -⟩ := outcome_of_any hvalid
  obtain ⟨m, hbuild, -⟩ := outcome_of_any hbuilds
  obtain ⟨d, hdraft, hinputs⟩ := outcome_of_any hdrafts
  obtain ⟨d', hdraft', hin, hout, -, -, hderived⟩ := interface_of_document hcheck hbuild
  cases hdraft.symm.trans hdraft'
  refine ⟨d, m, hdraft, hbuild, hin, hout, ?_, ?_, hderived⟩
  · rw [hin]
    exact of_decide_eq_true hinputs
  · rw [hout]
    decide +kernel

end Document

end BlockDiagram
