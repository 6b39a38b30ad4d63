import BlockDiagram.Command.Report
import BlockDiagram.Proofs.Document.Compilation
import BlockDiagram.Proofs.Model.Integrity
/-! Validation: building finishes whatever could be wired, so the only thing that can be wrong with a
built model is an input count, and the validating command never has a wiring defect to report. -/

namespace BlockDiagram

open Call

namespace Document

variable {α : Type} [Scalar α] {doc : Document α} {m : Model α}

theorem finished_of_built (hdoc : doc.check = .ok ()) (hbuild : doc.build = .ok m) : m.Finished := by
  obtain ⟨d, hdraft, hbuild⟩ := build_ok hbuild
  exact Draft.finished_of_built (lowered_of_draft (check_ok hdoc) hdraft).sound hbuild

end Document

theorem Format.load_ok {format : Format} {text : String} {doc : Document Float}
    (h : format.load text = .ok doc) : doc.check = .ok () := by
  obtain ⟨doc', -, h⟩ := outcome_bind_ok.mp h
  split at h
  · rename_i u hcheck
    cases h
    exact hcheck
  · cases h

namespace Command

/-- Only a valid document is built. -/
theorem loadModel_ok {path : String} {text : Option String} {m : Model Float}
    (h : loadModel path text = .ok m) :
    ∃ doc : Document Float, doc.check = .ok () ∧ doc.build = .ok m := by
  cases text with
  | none => cases h
  | some text =>
      obtain ⟨text, -, h⟩ := outcome_bind_ok.mp h
      obtain ⟨doc, hload, hbuild⟩ := outcome_bind_ok.mp h
      exact ⟨doc, Format.load_ok (outcome_mapError_ok.mp hload),
        outcome_mapError_ok.mp (outcome_mapError_ok.mp hbuild)⟩

theorem after_ok {m m' : Model Float} {call : Running Float Unit} (h : after m call = .ok m') :
    call.run m = .ok () m' := by
  unfold after at h
  split at h
  · rename_i hrun
    cases h
    exact hrun
  · cases h

/-- A model that has been prepared is valid. -/
theorem validityLines_eq {m : Model Float} (h : m.defects = []) :
    validityLines m = ["✓ Model is valid"] := by
  rw [validityLines, h]
  rfl

/-- The command fails before it has anything to say of the model, or finds it valid. -/
theorem validate_run (text : Option String) (path printed : String) :
    (run text (.validate path)).run printed =
      match loadModel path text >>= fun m => after m Model.prepare with
      | .ok _ => .ok () (printed ++ s!"Validating model: {path}" ++ "\n" ++ "✓ Model is valid" ++ "\n")
      | .error e => .error e (printed ++ s!"Validating model: {path}" ++ "\n") := by
  have hopen : (print s!"Validating model: {path}").run printed =
      .ok () (printed ++ s!"Validating model: {path}" ++ "\n") := rfl
  rw [run, EStateM.run_bind, hopen]
  dsimp only
  rw [EStateM.run_bind, run_lift]
  cases hload : loadModel path text with
  | error e => rfl
  | ok m =>
      rw [outcome_ok_bind]
      dsimp only
      rw [EStateM.run_bind, run_lift]
      cases hprepare : after m Model.prepare with
      | error e => rfl
      | ok m' =>
          obtain ⟨doc, hcheck, hbuild⟩ := loadModel_ok hload
          have hdefects :=
            (Document.finished_of_built hcheck hbuild).defects_of_prepare (after_ok hprepare)
          dsimp only
          rw [validityLines_eq hdefects]
          rfl

end Command

namespace Model

/-- Building finishes every graph that can be wired. In the model, whatever has been called on it, no
signal lacks an end, and all defects are input counts. If the search for an order complains of an input
count, it is the first defect; if there is a defect, the search complains; and what has been prepared has
no defect. So the validating command never reports one. -/
theorem building_finishes {α : Type} [Scalar α] :
    (∀ (d : Draft α) (m₀ : Model α), d.Reachable → d.wire = .ok m₀ → ∃ m, d.build = .ok m ∧
      ∀ n, Relation.ReflTransGen Calls m n →
        (∀ id s, n.signal? id = some s → n.Connected id s) ∧
        (∀ x ∈ n.defects, ∃ b a k, x = .arity b a k) ∧
        (∀ name tag a k n', prepare.run n = .error (.arity name tag a k) n' →
          n.defects.head? = some (.arity name a k)) ∧
        (n.defects ≠ [] → ∃ name tag a k n', prepare.run n = .error (.arity name tag a k) n') ∧
        ∀ n', prepare.run n = .ok () n' → n'.defects = []) ∧
    ∀ (text : Option String) (path printed : String),
      (Command.run text (.validate path)).run printed =
          .ok () (printed ++ s!"Validating model: {path}" ++ "\n" ++ "✓ Model is valid" ++ "\n") ∨
        ∃ e, (Command.run text (.validate path)).run printed =
          .error e (printed ++ s!"Validating model: {path}" ++ "\n") := by
  refine ⟨?_, fun text path printed => ?_⟩
  case refine_2 =>
    rw [Command.validate_run]
    split
    · exact .inl rfl
    · exact .inr ⟨_, rfl⟩
  intro d m₀ hd hwire
  obtain ⟨m, hbuild⟩ := Draft.build_of_wire hd.sound hwire
  refine ⟨m, hbuild, fun n hcalls => ?_⟩
  have hn := (Draft.finished_of_built hd.sound hbuild).calls hcalls
  have hedges := hn.sound.edges
  refine ⟨fun id s hs => hn.complete.connected hedges hs, fun x => hn.complete.defects_arity hedges,
    fun name tag a k n' => hn.defects_of_prepare_arity, fun hdefects => ?_,
    fun n' => hn.defects_of_prepare⟩
  obtain ⟨name, tag, a, k, n', hprepare, -⟩ := hn.prepare_of_defects hdefects
  exact ⟨name, tag, a, k, n', hprepare⟩

/-- A table read at a constant, followed by a quotient that has one input. -/
def lopsided : Draft Float :=
  .after "lopsided"
    [ .breakpoints "A" [0, 1], .table (some "T") ["A"] #[5, 7],
      .signal (Signal.declare "x" "x" ""), .signal ((Signal.declare "y" "y" "").withLimits (some 0) none),
      .block "zero" (.constant 0), .output ⟨0⟩ (.variable "x"), .function "curve" "T" ["x"] "y",
      .block "ratio" (.binary .quotient), .input ⟨3⟩ 0 (.variable "y") ]

/-- The quotient is its only defect, and the search for an order says so once all before it has been
computed. -/
theorem lopsided_finished :
    ∃ (m : Model Float) (tag : String) (a : Arity) (k : Nat) (m' : Model Float), lopsided.build = .ok m ∧
      m.defects.length = 1 ∧ prepare.run m = .error (.arity "ratio" tag a k) m' ∧
      m.defects.head? = some (.arity "ratio" a k) := by
  have hruns : lopsided.build.toOption.any (fun m => m.defects.length == 1 &&
      match prepare.run m with
      | .error (.arity name _ _ _) _ => name == "ratio"
      | _ => false) = true := by decide +kernel
  obtain ⟨m, hm, hrun⟩ := outcome_of_any hruns
  rw [Bool.and_eq_true, beq_iff_eq] at hrun
  obtain ⟨hone, hrun⟩ := hrun
  obtain ⟨m₀, hwire, -⟩ := outcome_bind_ok.mp hm
  obtain ⟨m', hm', hall⟩ := building_finishes.1 lopsided m₀ (Draft.reachable_after _ _) hwire
  cases hm.symm.trans hm'
  obtain ⟨-, -, hfirst, hfails, -⟩ := hall m .refl
  have hdefects : m.defects ≠ [] := by
    intro hnil
    rw [hnil] at hone
    cases hone
  obtain ⟨name, tag, a, k, n', harity⟩ := hfails hdefects
  rw [harity] at hrun
  obtain rfl := beq_iff_eq.mp hrun
  exact ⟨m, tag, a, k, n', hm, hone, harity, hfirst _ _ _ _ _ harity⟩

end Model

end BlockDiagram
