import BlockDiagram.Proofs.Document.Meaning
import BlockDiagram.Proofs.Document.Valid
import BlockDiagram.Proofs.Grid.Interpolation
import Mathlib.Data.List.NodupEquivFin
/-! Faults of documents: what a valid document can still be refused for, in the order in which building
comes upon it, and the variables that more than one part of a document defines. -/

namespace BlockDiagram

namespace Document

variable {α : Type}

section Faults

variable (doc : Document α)

/-- The number of points on an axis. -/
def axisLength (id : String) : Nat := ((doc.breakpointSet? id).map fun s => s.values.length).getD 0

/-- The number of nodes of the grid over the given axes. -/
def nodes (axes : List String) : Nat := gridSize (axes.map doc.axisLength)

/-- The nodes of each table can be counted in a word. -/
structure Countable : Prop where
  shared : ∀ t ∈ doc.tables, doc.nodes t.axes < wordSize
  own : ∀ f ∈ doc.functions, ∀ axes values, f.table = .own axes values → doc.nodes axes < wordSize

/-- The points of a breakpoint set never decrease. -/
def descentFault? [Arithmetic α] (b : Breakpoints α) : Option (ModelError α) :=
  (firstDescent b.values).map (.decreasing b.id)

/-- A table has one value a node. -/
def shapeFault? (id : String) (axes : List String) (values : List α) : Option (ModelError α) :=
  if values.length = doc.nodes axes then none
  else some (.tableShape id (doc.nodes axes) values.length)

/-- A function has one input an axis of its table. -/
def rankFault? (f : Function α) (axes : List String) : Option (ModelError α) :=
  if axes.length = f.inputs.length then none
  else some (.arity f.name "table" (.exactly axes.length) f.inputs.length)

/-- The fault of a function, whose table goes by the given ID if it is its own. -/
def functionFault? (id : String) (f : Function α) : Option (ModelError α) :=
  match f.table with
  | .shared _ => (doc.grid? f.table).bind fun (axes, _) => rankFault? f axes
  | .own axes values => (doc.shapeFault? id axes values).or (rankFault? f axes)

/-- The last number given to a table once a function has been seen: one of the function's own gets the
next number with which no shared table is called. -/
def tableNumber (used : Nat) (f : Function α) : Nat :=
  match f.table with
  | .shared _ => used
  | .own _ _ => firstFree (fun n => s!"anon_table_{n}") (doc.tables.map Grid.id) (used + 1)

/-- The fault of the first function that has one. -/
def functionsFault? : (used : Nat) → List (Function α) → Option (ModelError α)
  | _, [] => none
  | used, f :: rest =>
    let number := doc.tableNumber used f
    (doc.functionFault? s!"anon_table_{number}" f).or (functionsFault? number rest)

/-- The first fault of a valid document. -/
def fault? [Arithmetic α] : Option (ModelError α) :=
  (doc.breakpoints.findSome? descentFault?).or <|
    (doc.tables.findSome? fun t => doc.shapeFault? t.id t.axes t.values).or <|
      doc.functionsFault? 0 doc.functions

/-- Two functions define the variable, or a function and a formula. -/
def DefinedTwice (v : String) : Prop :=
  (∃ (i j : Nat) (f g : Function α), i < j ∧ doc.functions[i]? = some f ∧ doc.functions[j]? = some g ∧
    f.output = v ∧ g.output = v) ∨
  (∃ f ∈ doc.functions, f.output = v) ∧ ∃ w ∈ doc.vars, w.varId = v ∧ w.calculation.isSome

/-- The variables that formulas define. -/
def calculated (vars : List (Variable α)) : List String :=
  (vars.filter fun v => v.calculation.isSome).map Variable.varId

/-- The variables that functions and formulas define, with an entry for each of these. -/
def defined : List String := doc.functions.map Function.output ++ calculated doc.vars

end Faults

variable {doc : Document α}

theorem shapeFault?_kind {id : String} {axes : List String} {values : List α} {e : ModelError α}
    (h : doc.shapeFault? id axes values = some e) : e.kind = "TableShape" := by
  unfold shapeFault? at h
  split at h
  · cases h
  · cases h
    rfl

theorem rankFault?_kind {f : Function α} {axes : List String} {e : ModelError α}
    (h : rankFault? f axes = some e) : e.kind = "ArityMismatch" := by
  unfold rankFault? at h
  split at h
  · cases h
  · cases h
    rfl

theorem functionFault?_kind {id : String} {f : Function α} {e : ModelError α}
    (h : doc.functionFault? id f = some e) : e.kind = "TableShape" ∨ e.kind = "ArityMismatch" := by
  unfold functionFault? at h
  split at h
  · obtain ⟨grid, -, hrank⟩ := Option.bind_eq_some_iff.mp h
    exact .inr (rankFault?_kind hrank)
  · rcases Option.or_eq_some_iff.mp h with hshape | ⟨-, hrank⟩
    · exact .inl (shapeFault?_kind hshape)
    · exact .inr (rankFault?_kind hrank)

theorem functionsFault?_kind {used : Nat} {fs : List (Function α)} {e : ModelError α}
    (h : doc.functionsFault? used fs = some e) : e.kind = "TableShape" ∨ e.kind = "ArityMismatch" := by
  induction fs generalizing used with
  | nil => cases h
  | cons f rest ih =>
      rcases Option.or_eq_some_iff.mp h with hf | ⟨-, hrest⟩
      · exact functionFault?_kind hf
      · exact ih hrest

theorem fault?_kind [Arithmetic α] {e : ModelError α} (h : doc.fault? = some e) :
    e.kind ∈ ["NonMonotonicBreakpoints", "TableShape", "ArityMismatch"] := by
  rcases Option.or_eq_some_iff.mp h with hsets | ⟨-, hrest⟩
  · obtain ⟨b, -, hb⟩ := List.exists_of_findSome?_eq_some hsets
    obtain ⟨i, -, rfl⟩ := Option.map_eq_some_iff.mp hb
    exact List.mem_cons_self
  · rcases Option.or_eq_some_iff.mp hrest with htables | ⟨-, hfunctions⟩
    · obtain ⟨t, -, ht⟩ := List.exists_of_findSome?_eq_some htables
      rw [shapeFault?_kind ht]
      decide
    · rcases functionsFault?_kind hfunctions with hkind | hkind
      · rw [hkind]
        decide
      · rw [hkind]
        decide

theorem one_lt_count_outputs {fs : List (Function α)} {v : String} :
    1 < (fs.map Function.output).count v ↔ ∃ (i j : Nat) (f g : Function α), i < j ∧
      fs[i]? = some f ∧ fs[j]? = some g ∧ f.output = v ∧ g.output = v := by
  rw [show 1 < (fs.map Function.output).count v ↔ 2 ≤ (fs.map Function.output).count v from Iff.rfl,
    ← List.duplicate_iff_two_le_count, List.duplicate_iff_exists_distinct_get]
  constructor
  · rintro ⟨⟨i, hi⟩, ⟨j, hj⟩, hij, hf, hg⟩
    rw [List.length_map] at hi hj
    rw [List.get_eq_getElem, List.getElem_map] at hf hg
    exact ⟨i, j, fs[i], fs[j], hij, List.getElem?_eq_getElem hi, List.getElem?_eq_getElem hj, hf.symm,
      hg.symm⟩
  · rintro ⟨i, j, f, g, hij, hf, hg, rfl, hout⟩
    obtain ⟨hi, rfl⟩ := List.getElem?_eq_some_iff.mp hf
    obtain ⟨hj, rfl⟩ := List.getElem?_eq_some_iff.mp hg
    refine ⟨⟨i, by rw [List.length_map]; exact hi⟩, ⟨j, by rw [List.length_map]; exact hj⟩, hij, ?_, ?_⟩
    · rw [List.get_eq_getElem, List.getElem_map]
    · rw [List.get_eq_getElem, List.getElem_map, hout]

theorem mem_calculated {vars : List (Variable α)} {v : String} :
    v ∈ calculated vars ↔ ∃ w ∈ vars, w.varId = v ∧ w.calculation.isSome := by
  simp only [calculated, List.mem_map, List.mem_filter]
  constructor
  · rintro ⟨w, ⟨hw, hsome⟩, rfl⟩
    exact ⟨w, hw, rfl, hsome⟩
  · rintro ⟨w, hw, rfl, hsome⟩
    exact ⟨w, ⟨hw, hsome⟩, rfl⟩

variable [Scalar α]

/-- No two formulas define one variable, so one of two definitions is a function. -/
theorem one_lt_count_defined (hdoc : doc.Valid) {v : String} :
    1 < doc.defined.count v ↔ doc.DefinedTwice v := by
  have hformulas : (calculated doc.vars).count v ≤ 1 :=
    List.nodup_iff_count_le_one.mp (hdoc.vars.sublist (List.filter_sublist.map _)) v
  have hfunction : 0 < (doc.functions.map Function.output).count v ↔
      ∃ f ∈ doc.functions, f.output = v := by
    rw [List.count_pos_iff, List.mem_map]
  have hformula : 0 < (calculated doc.vars).count v ↔
      ∃ w ∈ doc.vars, w.varId = v ∧ w.calculation.isSome := by
    rw [List.count_pos_iff, mem_calculated]
  rw [DefinedTwice, ← one_lt_count_outputs, ← hfunction, ← hformula, defined, List.count_append]
  omega

theorem Valid.axisLength_eq (hdoc : doc.Valid) {b : Breakpoints α} (hb : b ∈ doc.breakpoints) :
    doc.axisLength b.id = b.values.length := by
  rw [axisLength, breakpointSet?, find?_of_nodup hdoc.sets hb]
  rfl

theorem Valid.defined (hdoc : doc.Valid) : ∀ v ∈ doc.defined, v ∈ doc.vars.map Variable.varId := by
  intro v hv
  rcases List.mem_append.mp hv with hv | hv
  · obtain ⟨f, hf, rfl⟩ := List.mem_map.mp hv
    exact hdoc.output hf
  · obtain ⟨w, hw, rfl, -⟩ := mem_calculated.mp hv
    exact List.mem_map_of_mem hw

end Document

end BlockDiagram
