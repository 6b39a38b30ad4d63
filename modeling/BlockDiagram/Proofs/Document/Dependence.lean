import BlockDiagram.Document
import Mathlib.Data.List.Perm.Basic
import Mathlib.Logic.Relation
/-! Dependence: what the formulas and functions of a document say about the order in which it can be
evaluated. Formulas name variables, and they apply operators to some number of arguments; limits, roles
and tables have no say in either. -/

namespace BlockDiagram

variable {α : Type}

/-- The input counts an operator accepts, whatever the tables. -/
def Operator.arity (op : Operator) : Arity := (op.kind : BlockKind Empty).arity #[]

theorem Operator.kind_arity (op : Operator) (tables : Array (Table α)) :
    (op.kind : BlockKind α).arity tables = op.arity := by
  cases op <;> rfl

/-- An operator applied to a number of arguments, and the way to it down a tree. Each step of the way is
a position among the arguments of the operator above. -/
structure Application where
  path : List Nat
  op : Operator
  count : Nat

namespace Application

/-- The same application, seen from a place above. -/
def below (k : Nat) (a : Application) : Application := { a with path := k :: a.path }

/-- The operator does not accept the number of arguments. -/
def misfits (a : Application) : Bool := !a.op.arity.accepts a.count

end Application

namespace Formula

mutual

/-- The variables that a formula names. -/
def mentions : Formula α → List String
  | .number _ | .const _ => []
  | .name varId | .var varId => [varId]
  | .apply _ args => mentionsAmong args

def mentionsAmong : List (Formula α) → List String
  | [] => []
  | f :: rest => f.mentions ++ mentionsAmong rest

end

mutual

/-- The operators applied in a formula, each before those among its arguments. -/
def applications : Formula α → List Application
  | .apply op args => ⟨[], op, args.length⟩ :: applicationsAmong 0 args
  | _ => []

/-- The operators applied in formulas that stand side by side, the first one in position `k`. -/
def applicationsAmong : Nat → List (Formula α) → List Application
  | _, [] => []
  | k, f :: rest => f.applications.map (Application.below k) ++ applicationsAmong (k + 1) rest

end

end Formula

namespace Document

/-- The operators applied in the formulas of some variables, the first one in position `k`. -/
def applicationsFrom : Nat → List (Variable α) → List Application
  | _, [] => []
  | k, v :: rest =>
    (v.calculation.elim [] Formula.applications).map (Application.below k) ++
      applicationsFrom (k + 1) rest

/-- The operators applied in a document. The way to one starts with the position of its variable. -/
def applications (doc : Document α) : List Application := applicationsFrom 0 doc.vars

/-- The first operator of a document that does not accept the number of its arguments. -/
def misfit? (doc : Document α) : Option Application := doc.applications.find? Application.misfits

/-- The formula of `v` names `w`, or `v` is given by a function of `w`. -/
def DependsOn (doc : Document α) (v w : String) : Prop :=
  (∃ x ∈ doc.vars, x.varId = v ∧ ∃ f, x.calculation = some f ∧ w ∈ f.mentions) ∨
    ∃ f ∈ doc.functions, f.output = v ∧ w ∈ f.inputs

/-- Some variable depends on itself, at once or by way of others. -/
def Cyclic (doc : Document α) : Prop := ∃ v, Relation.TransGen doc.DependsOn v v

/-- The documents define the same variables by the same formulas and by functions of the same variables.
The order of declaration may differ, and so may limits, roles, initial values and all of the grid data. -/
structure SameDefinitions (doc doc' : Document α) : Prop where
  formulas : (doc.vars.map fun v => (v.varId, v.calculation)).Perm
    (doc'.vars.map fun v => (v.varId, v.calculation))
  functions : (doc.functions.map fun f => (f.inputs, f.output)).Perm
    (doc'.functions.map fun f => (f.inputs, f.output))

theorem mem_applicationsFrom {a : Application} {vars : List (Variable α)} {k : Nat}
    (h : a ∈ applicationsFrom k vars) :
    ∃ v ∈ vars, ∃ f, v.calculation = some f ∧ ∃ b ∈ f.applications, a.misfits = b.misfits := by
  induction vars generalizing k with
  | nil => cases h
  | cons v rest ih =>
      rcases List.mem_append.mp h with hhead | hrest
      · obtain ⟨b, hb, rfl⟩ := List.mem_map.mp hhead
        cases hcalculation : v.calculation with
        | none => simp [hcalculation] at hb
        | some f => exact ⟨v, List.mem_cons_self, f, hcalculation, b, by simpa [hcalculation] using hb, rfl⟩
      · obtain ⟨w, hw, hf⟩ := ih hrest
        exact ⟨w, List.mem_cons_of_mem v hw, hf⟩

theorem applicationsFrom_of_mem {b : Application} {vars : List (Variable α)} {v : Variable α}
    {f : Formula α} (hv : v ∈ vars) (hf : v.calculation = some f) (hb : b ∈ f.applications) (k : Nat) :
    ∃ a ∈ applicationsFrom k vars, a.misfits = b.misfits := by
  induction vars generalizing k with
  | nil => cases hv
  | cons w rest ih =>
      rcases List.mem_cons.mp hv with rfl | hrest
      · refine ⟨b.below k, List.mem_append_left _ (List.mem_map_of_mem ?_), rfl⟩
        simpa [hf] using hb
      · obtain ⟨a, ha, hsame⟩ := ih hrest (k + 1)
        exact ⟨a, List.mem_append_right _ ha, hsame⟩

/-- Whether some operator has a wrong number of arguments does not depend on where it stands. -/
theorem misfit?_isSome {doc : Document α} : doc.misfit?.isSome ↔
    ∃ v ∈ doc.vars, ∃ f, v.calculation = some f ∧ ∃ b ∈ f.applications, b.misfits = true := by
  rw [misfit?, List.find?_isSome]
  constructor
  · rintro ⟨a, ha, hmisfit⟩
    obtain ⟨v, hv, f, hf, b, hb, hsame⟩ := mem_applicationsFrom ha
    exact ⟨v, hv, f, hf, b, hb, hsame ▸ hmisfit⟩
  · rintro ⟨v, hv, f, hf, b, hb, hmisfit⟩
    obtain ⟨a, ha, hsame⟩ := applicationsFrom_of_mem hv hf hb 0
    exact ⟨a, ha, hsame.trans hmisfit⟩

namespace SameDefinitions

variable {doc doc' : Document α}

theorem symm (h : doc.SameDefinitions doc') : doc'.SameDefinitions doc :=
  ⟨h.formulas.symm, h.functions.symm⟩

theorem exists_variable (h : doc.SameDefinitions doc') {v : Variable α} (hv : v ∈ doc.vars) :
    ∃ w ∈ doc'.vars, w.varId = v.varId ∧ w.calculation = v.calculation := by
  have hin := h.formulas.subset (List.mem_map_of_mem hv)
  obtain ⟨w, hw, hsame⟩ := List.mem_map.mp hin
  exact ⟨w, hw, congrArg Prod.fst hsame, congrArg Prod.snd hsame⟩

theorem exists_function (h : doc.SameDefinitions doc') {f : Function α} (hf : f ∈ doc.functions) :
    ∃ g ∈ doc'.functions, g.inputs = f.inputs ∧ g.output = f.output := by
  have hin := h.functions.subset (List.mem_map_of_mem hf)
  obtain ⟨g, hg, hsame⟩ := List.mem_map.mp hin
  exact ⟨g, hg, congrArg Prod.fst hsame, congrArg Prod.snd hsame⟩

theorem dependsOn (h : doc.SameDefinitions doc') {v w : String} (hvw : doc.DependsOn v w) :
    doc'.DependsOn v w := by
  rcases hvw with ⟨x, hx, rfl, f, hf, hw⟩ | ⟨f, hf, rfl, hw⟩
  · obtain ⟨y, hy, hid, hcalculation⟩ := h.exists_variable hx
    exact .inl ⟨y, hy, hid, f, hcalculation.trans hf, hw⟩
  · obtain ⟨g, hg, hinputs, houtput⟩ := h.exists_function hf
    exact .inr ⟨g, hg, houtput, hinputs ▸ hw⟩

theorem cyclic (h : doc.SameDefinitions doc') (hcyclic : doc.Cyclic) : doc'.Cyclic := by
  obtain ⟨v, hv⟩ := hcyclic
  have hle : doc.DependsOn ≤ doc'.DependsOn := fun _ _ => h.dependsOn
  exact ⟨v, Relation.TransGen.mono hle v v hv⟩

theorem misfit (h : doc.SameDefinitions doc') (hmisfit : doc.misfit?.isSome) :
    doc'.misfit?.isSome := by
  obtain ⟨v, hv, f, hf, hb⟩ := misfit?_isSome.mp hmisfit
  obtain ⟨w, hw, -, hcalculation⟩ := h.exists_variable hv
  exact misfit?_isSome.mpr ⟨w, hw, f, hcalculation.trans hf, hb⟩

end SameDefinitions

end Document

end BlockDiagram
