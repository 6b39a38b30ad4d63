import BlockDiagram.Proofs.Document.Agreement
import Mathlib.Data.Finset.Card
/-! Compilation preserves meaning: what an evaluated model shows of the variables of its document is
what the document means by them. -/

namespace BlockDiagram

open Call Draft

namespace Document

section Meaning

variable {α : Type} [Scalar α] [Unbounded α] {doc : Document α} {d : Draft α}
  {held raw seen val : String → Option α} {rank : String → Nat}

/-- The value of a variable before its limits act, over values that are right for all variables of
smaller rank. -/
theorem Lowered.rawValue?_eq (h : doc.Lowered d) (hdoc : doc.Valid)
    (hsolved : d.Solved held raw seen rank) {v : Variable α} (hv : v ∈ doc.vars)
    (hval : ∀ w ∈ doc.vars.map Variable.varId, rank w < rank v.varId → val w = seen w) :
    doc.rawValue? held val v = raw v.varId := by
  unfold rawValue?
  cases hcalculation : v.calculation with
  | some f =>
      exact (h.formulas v hv f hcalculation).value? hsolved hval (hdoc.formulas v hv f hcalculation)
  | none =>
      cases hfind : doc.functions.find? fun f => f.output == v.varId with
      | some f =>
          have hf := List.mem_of_find?_eq_some hfind
          have hout : f.output = v.varId := beq_iff_eq.mp (List.find?_some hfind :)
          rw [← hout] at hval ⊢
          exact h.functionValue? hdoc hsolved hf fun w hw => hval w (hdoc.inputs hf w hw)
      | none =>
          have hopen : ¬ d.Produced v.varId := by
            refine h.free v hv hcalculation fun f hf heq => ?_
            have hnot := List.find?_eq_none.mp hfind f hf
            rw [heq, beq_self_eq_true] at hnot
            exact hnot rfl
          obtain ⟨i, hi⟩ := h.signals v hv
          exact (hsolved.fed i v.signal hi hopen).symm

/-- The variables of rank less than `r`. -/
def precedents (doc : Document α) (rank : String → Nat) (r : Nat) : Finset String :=
  (doc.vars.map Variable.varId).toFinset.filter fun w => rank w < r

omit [Scalar α] [Unbounded α] in
theorem mem_precedents {r : Nat} {w : String} :
    w ∈ doc.precedents rank r ↔ w ∈ doc.vars.map Variable.varId ∧ rank w < r := by
  rw [precedents, Finset.mem_filter, List.mem_toFinset]

omit [Scalar α] [Unbounded α] in
theorem card_precedents_lt {r : Nat} {w : String} (hw : w ∈ doc.vars.map Variable.varId)
    (hlt : rank w < r) : (doc.precedents rank (rank w)).card < (doc.precedents rank r).card := by
  refine Finset.card_lt_card (Finset.ssubset_iff_of_subset ?_ |>.mpr ?_)
  · intro u hu
    obtain ⟨hin, hrank⟩ := mem_precedents.mp hu
    exact mem_precedents.mpr ⟨hin, hrank.trans hlt⟩
  · exact ⟨w, mem_precedents.mpr ⟨hw, hlt⟩, fun hu => Nat.lt_irrefl _ (mem_precedents.mp hu).2⟩

omit [Scalar α] [Unbounded α] in
theorem card_precedents_lt_length {w : String} (hw : w ∈ doc.vars.map Variable.varId) :
    (doc.precedents rank (rank w)).card < doc.vars.length := by
  have hssubset : doc.precedents rank (rank w) ⊂ (doc.vars.map Variable.varId).toFinset := by
    refine (Finset.ssubset_iff_of_subset (Finset.filter_subset _ _)).mpr ⟨w, List.mem_toFinset.mpr hw, ?_⟩
    exact fun hu => Nat.lt_irrefl _ (mem_precedents.mp hu).2
  have hle := List.toFinset_card_le (doc.vars.map Variable.varId)
  rw [List.length_map] at hle
  exact Nat.lt_of_lt_of_le (Finset.card_lt_card hssubset) hle

/-- Unfolding a definition reaches the variables of smaller rank only, so a depth beyond their number
will do. -/
theorem Lowered.valueWithin?_eq (h : doc.Lowered d) (hdoc : doc.Valid)
    (hsolved : d.Solved held raw seen rank) {depth : Nat} {v : Variable α} (hv : v ∈ doc.vars)
    (hdepth : (doc.precedents rank (rank v.varId)).card < depth) :
    doc.valueWithin? held depth v.varId = seen v.varId := by
  induction depth generalizing v with
  | zero => exact absurd hdepth (Nat.not_lt_zero _)
  | succ depth ih =>
      have hval : ∀ w ∈ doc.vars.map Variable.varId, rank w < rank v.varId →
          doc.valueWithin? held depth w = seen w := by
        intro w hw hlt
        have hcard := card_precedents_lt hw hlt
        obtain ⟨u, hu, rfl⟩ := List.mem_map.mp hw
        exact ih hu (Nat.lt_of_lt_of_le hcard (Nat.le_of_lt_succ hdepth))
      obtain ⟨x, hx, hseen⟩ := h.seen_eq hdoc hsolved hv
      rw [valueWithin?, find?_of_nodup hdoc.vars hv, Option.bind_eq_bind, Option.bind_some,
        h.rawValue?_eq hdoc hsolved hv hval, hx, hseen]
      rfl

theorem Lowered.value?_eq (h : doc.Lowered d) (hdoc : doc.Valid)
    (hsolved : d.Solved held raw seen rank) {v : Variable α} (hv : v ∈ doc.vars) :
    ∃ x, seen v.varId = some x ∧ doc.value? held v.varId = some x := by
  obtain ⟨x, -, hx⟩ := h.seen_eq hdoc hsolved hv
  refine ⟨_, hx, ?_⟩
  rw [value?, h.valueWithin?_eq hdoc hsolved hv (card_precedents_lt_length (List.mem_map_of_mem hv))]
  exact hx

omit [Unbounded α] in
theorem build_ok {m : Model α} (h : doc.build = .ok m) : ∃ d, doc.draft = .ok d ∧ d.build = .ok m :=
  outcome_bind_ok.mp h

/-- Compilation preserves meaning. Whatever values the inputs of the model of a valid document have been
given, and whatever else has been done to it, one or more successful evaluations leave on every variable
the value that the document gives it over the values the inputs hold. -/
theorem compilation_preserves_meaning (hdoc : doc.check = .ok ()) {m₀ : Model α}
    (hbuild : doc.build = .ok m₀) {m m' : Model α} (hm : m₀.Operated m)
    (hrun : Relation.TransGen Model.Computes m m') :
    ∀ v ∈ doc.vars, ∃ x, m'.valueOf? v.varId = some x ∧ doc.value? m.held? v.varId = some x := by
  obtain ⟨d, hdraft, hbuild⟩ := build_ok hbuild
  have hvalid := check_ok hdoc
  have hlowered := lowered_of_draft hvalid hdraft
  obtain ⟨hm₀, hcomplete⟩ := built_sound_complete hlowered.sound hbuild
  obtain ⟨n, hn, hheld, hlast⟩ := hm.last_evaluation hm₀ hcomplete hrun
  obtain ⟨hsound, hbare⟩ := hn.sound_and_bare hm₀ hcomplete
  obtain ⟨raw, rank, hsolved⟩ := solved_of_computes hlowered.sound hbuild hsound hbare hlast
  rw [hlast.held?_eq hsound, hheld] at hsolved
  exact fun v hv => hlowered.value?_eq hvalid hsolved hv

end Meaning

/-- A limited input, a formula of it that names a variable declared later, and a function of it. -/
def gauge : Document Float where
  version := 1
  name := "gauge"
  vars :=
    [ { varId := "x", min := some 0, roles := { input := true } },
      { varId := "y", calculation :=
          some (.apply .plus [.name "x", .number 1, .apply .times [.name "z", .name "z"]]) },
      { varId := "z", initial := some 3 }, { varId := "w" } ]
  breakpoints := [{ id := "grid", values := [0, 1, 2] }]
  functions := [{ name := "f", inputs := ["x"], output := "w", table := .own ["grid"] [10, 20, 40] }]

/-- The input is set beyond its limit once the model has been prepared, and two cycles follow. -/
theorem compilation_preserves_gauge :
    ∃ m₀ m m' : Model Float, gauge.build = .ok m₀ ∧
      (do Model.prepare; Model.setInput "x" (-5) : Running Float Unit).run m₀ = .ok () m ∧
      (do Model.cycle; Model.cycle : Running Float Unit).run m = .ok () m' ∧
      ∀ v ∈ gauge.vars, ∃ x, m'.valueOf? v.varId = some x ∧ gauge.value? m.held? v.varId = some x := by
  have hvalid : gauge.check.toOption.any (fun _ => true) = true := by decide +kernel
  have hruns : gauge.build.toOption.any (fun m₀ => (do
      (do Model.prepare; Model.setInput "x" (-5)); (do Model.cycle; Model.cycle) :
        Running Float Unit).run m₀ matches .ok _ _) = true := by decide +kernel
  obtain ⟨u₀, hcheck, -⟩ := outcome_of_any hvalid
  obtain ⟨m₀, hbuild, hrun⟩ := outcome_of_any hruns
  split at hrun
  · rename_i u m' hcalls
    obtain ⟨u₁, m, hset, hcycles⟩ := run_bind_ok.mp hcalls
    obtain ⟨u₂, m₁, hprepare, hinput⟩ := run_bind_ok.mp hset
    obtain ⟨u₃, m₂, hfirst, hsecond⟩ := run_bind_ok.mp hcycles
    have hm₁ : m₀.Operated (final ModelCall.prepare.run m₀) := .call .prepare .built
    rw [ModelCall.run, final_of_ok hprepare] at hm₁
    have hm := hm₁.call (.setInput "x" (-5))
    rw [ModelCall.run, final_of_ok hinput] at hm
    exact ⟨m₀, m, m', hbuild, hset, hcycles, compilation_preserves_meaning hcheck hbuild hm
      (.tail (.single (.inl hfirst)) (.inl hsecond))⟩
  · cases hrun

end Document

end BlockDiagram
