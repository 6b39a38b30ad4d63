import BlockDiagram.Proofs.Document.Feedback
import BlockDiagram.Proofs.Document.Tables
import BlockDiagram.Proofs.Document.Trees
/-! Census of a document: the blocks that its model has, as the document asks for them, and no others. There
are the blocks of its functions, those of its formulas, and those that completion adds at the ends of its
variables. -/

namespace BlockDiagram

open Call Draft

variable {α : Type}

namespace Formula

/-- The variable that a formula is a reference to, if it is one. -/
def reference? : Formula α → Option String
  | .name w | .var w => some w
  | _ => none

mutual

/-- The rows of what an argument is computed by: a constant for a literal, a block for each operator. A
reference is read where it is. -/
def argumentRows : Formula α → List (Row α)
  | .name _ | .var _ => []
  | .number x | .const x => [⟨.constant x, []⟩]
  | .apply op args => ⟨op.kind, args.map reference?⟩ :: argumentRowsAmong args

def argumentRowsAmong : List (Formula α) → List (Row α)
  | [] => []
  | f :: rest => f.argumentRows ++ argumentRowsAmong rest

end

/-- The rows of a formula that defines a variable. A reference becomes a sum of one term. -/
def rows (f : Formula α) : List (Row α) :=
  ⟨f.head.1, f.head.2.map reference?⟩ :: argumentRowsAmong f.head.2

end Formula

namespace Document

section Rows

variable [Scalar α] (doc : Document α)

/-- The rows of the functions: the normalizers that they share, and a lookup for each. -/
def gridRows : List (Row α) := doc.normalizerRows ++ doc.lookupRows

/-- The rows of the formulas of all variables. -/
def formulaRows : List (Row α) := doc.vars.flatMap fun v => v.calculation.elim [] Formula.rows

/-- The rows at the ends of a variable: a limiter if it has a finite limit, a source if nothing defines it,
and an output if it is exposed. The source is a constant if there is an initial value and the caller is not
to drive the variable. -/
def endRows (v : Variable α) : List (Row α) :=
  (if v.isBounded then [⟨.limiterBetween v.signal.lower v.signal.upper, [none]⟩] else []) ++
    ((if doc.isDefined v then [] else [⟨v.signal.sourceKind, []⟩]) ++
      if doc.isExposed v then [⟨.output, [some v.varId]⟩] else [])

/-- The blocks that a document asks for. -/
def census : List (Row α) := doc.gridRows ++ (doc.formulaRows ++ doc.vars.flatMap doc.endRows)

end Rows

end Document

variable [Scalar α]

section Formulas

variable {d : Draft α}

/-- The rows of the blocks of formulas, if the variables that they name have been declared. What carries an
argument is shown just if the argument is a reference. -/
theorem Draft.Lays.rows (hd : d.Sound) {fs : List (Formula α)} {vs : List String} {i j : Nat}
    (h : d.Lays fs vs i j) (hshown : ∀ w ∈ Formula.mentionsAmong fs, d.shown? w = some w) :
    vs.map d.shown? = fs.map Formula.reference? ∧
      d.rows.drop i = Formula.argumentRowsAmong fs ++ d.rows.drop j := by
  induction h with
  | nil i => exact ⟨rfl, rfl⟩
  | @reference f fs w vs i j hf hrest ih =>
      obtain ⟨hhead, hmore⟩ := List.forall_mem_append.mp hshown
      obtain ⟨hshows, hrows⟩ := ih hmore
      have hw : w ∈ f.mentions := by
        rcases hf with rfl | rfl <;> exact List.mem_singleton_self w
      rw [List.map_cons, List.map_cons, hhead w hw, hshows, hrows]
      rcases hf with rfl | rfl <;> exact ⟨rfl, rfl⟩
  | @literal f fs x v vs i j hf hv hputs hrest ih =>
      obtain ⟨hshows, hrows⟩ := ih (List.forall_mem_append.mp hshown).2
      rw [List.map_cons, List.map_cons, hv.shown? hd, hshows, hputs.rows_drop, hrows]
      rcases hf with rfl | rfl <;> exact ⟨rfl, rfl⟩
  | @apply op args fs us v vs i k j hv hputs hargs hrest ihargs ih =>
      obtain ⟨hhead, hmore⟩ := List.forall_mem_append.mp hshown
      obtain ⟨hreads, hnested⟩ := ihargs hhead
      obtain ⟨hshows, hrows⟩ := ih hmore
      rw [List.map_cons, List.map_cons, hv.shown? hd, hshows, hputs.rows_drop, hreads, hnested, hrows,
        ← List.append_assoc]
      exact ⟨rfl, rfl⟩

theorem Document.Spreads.rows (hd : d.Sound) {vars : List (Document.Variable α)} {i j : Nat}
    (h : Document.Spreads d vars i j)
    (hshown : ∀ v ∈ vars, ∀ f, v.calculation = some f → ∀ w ∈ f.mentions, d.shown? w = some w) :
    d.rows.drop i =
      (vars.flatMap fun v => v.calculation.elim [] Formula.rows) ++ d.rows.drop j := by
  induction h with
  | nil i => rfl
  | free hnone hrest ih =>
      obtain ⟨-, hmore⟩ := List.forall_mem_cons.mp hshown
      rw [ih hmore, List.flatMap_cons, hnone]
      rfl
  | @formula v vars f ws i k j hf hputs hlays hrest ih =>
      obtain ⟨hfirst, hmore⟩ := List.forall_mem_cons.mp hshown
      have hmentions := hfirst f hf
      rw [← f.mentions_head] at hmentions
      obtain ⟨hreads, hnested⟩ := hlays.rows hd hmentions
      rw [hputs.rows_drop, hreads, hnested, ih hmore, List.flatMap_cons, hf, ← List.append_assoc]
      rfl

end Formulas

namespace Document

variable {doc : Document α} {d : Draft α} {w m : Model α}

/-- The rows of the draft of a document: those of its functions in some order, then those of its formulas in
the order of the variables. -/
theorem rows_of_draft (hdoc : doc.Valid) (hdraft : doc.draft = .ok d) :
    d.rows.Perm (doc.gridRows ++ doc.formulaRows) ∧
      Spreads d doc.vars doc.gridRows.length (doc.gridRows ++ doc.formulaRows).length := by
  have hlowered := lowered_of_draft hdoc hdraft
  obtain ⟨n, hgrid, hspreads⟩ := tabled_of_draft hdoc hdraft
  have hshown : ∀ v ∈ doc.vars, ∀ f, v.calculation = some f → ∀ w ∈ f.mentions,
      d.shown? w = some w := by
    intro v hv f hf w hw
    obtain ⟨x, hx, rfl⟩ := List.mem_map.mp (Formula.mentions_known f (hdoc.formulas v hv f hf) w hw)
    exact hlowered.shown?_eq hx
  have hformulas := hspreads.rows hlowered.sound hshown
  rw [← length_rows, List.drop_length, List.append_nil] at hformulas
  have hrows : d.rows.Perm (doc.gridRows ++ doc.formulaRows) := by
    rw [← List.take_append_drop n d.rows, hformulas]
    exact hgrid.append_right _
  -- the rows in front are as many as those asked for, so the formulas begin behind these
  have hplace : n = doc.gridRows.length := by
    have hle := hspreads.le
    rw [← length_rows] at hle
    rw [gridRows, ← hgrid.length_eq, List.length_take, Nat.min_eq_left hle]
  rw [← length_rows, hrows.length_eq, hplace] at hspreads
  exact ⟨hrows, hspreads⟩

/-- The blocks that are due for a variable are those at its ends. -/
theorem Tied.owed [Unbounded α] {v : Variable α} {t : Signal α} (h : doc.Tied v t)
    (htap : w.hasTap t = false) : w.owed t = doc.endRows v := by
  have hneed : t.needsLimiter = v.isBounded := h.needsLimiter_eq.trans v.needsLimiter_signal
  have hexposed : w.needsTap t = doc.isExposed v := by
    rw [Model.needsTap, htap, ← h.isExposed_eq]
    rfl
  rw [Model.owed, endRows, hneed, hexposed, h.source, h.eq_signal]
  cases doc.isDefined v <;> rfl

/-- Nothing is due for what lowering has derived. -/
theorem owed_derived [Unbounded α] (hdraft : doc.draft = .ok d) (hlowered : doc.Lowered d)
    (hw : d.Wired d.blocks.toList w) : ∀ t ∈ w.signals.toList.drop doc.vars.length, w.owed t = [] := by
  intro t ht
  obtain ⟨hclosed, hhidden⟩ := derived_signals hdraft hlowered hw t ht
  obtain ⟨j, hj⟩ := List.mem_iff_getElem?.mp ht
  rw [List.getElem?_drop, Array.getElem?_toList] at hj
  have hs : w.signal? ⟨doc.vars.length + j⟩ = some t := hj
  obtain ⟨v, hv, -⟩ := backed_of_draft hdraft _ _ (Nat.le_add_right _ j) (hw.signal? hs)
  have hneed : t.needsLimiter = false := by
    rw [← t.needsLimiter_unwired, hv, Signal.derive_needsLimiter]
  have hinitial : t.initial = none := (congrArg Signal.initial hv :)
  have hsource : t.source.isNone = false := by
    rw [Signal.isOpen, hinitial] at hclosed
    simpa using hclosed
  have htap : w.needsTap t = false := by
    rw [Signal.isExposed] at hhidden
    rw [Model.needsTap, hhidden, Bool.and_false]
  rw [Model.owed, hneed, hsource, htap]
  rfl

omit [Scalar α] in
/-- Lists that correspond have the same image where corresponding members have. -/
theorem map_eq_of_forall₂ {β γ δ : Type} {R : β → γ → Prop} {f : β → δ} {g : γ → δ} {xs : List β}
    {ys : List γ} (h : List.Forall₂ R xs ys) (heq : ∀ x, ∀ y ∈ ys, R x y → f x = g y) :
    xs.map f = ys.map g := by
  induction h with
  | nil => rfl
  | cons hxy _ ih =>
      rw [List.map_cons, List.map_cons, heq _ _ List.mem_cons_self hxy,
        ih fun x y hy => heq x y (List.mem_cons_of_mem _ hy)]

/-- Completion has to add the blocks at the ends of the variables, and no others. -/
theorem dues_of_document [Unbounded α] (hdraft : doc.draft = .ok d) (hlowered : doc.Lowered d)
    (harranged : doc.Arranged d) (hw : d.Wired d.blocks.toList w) :
    w.dues = doc.vars.flatMap doc.endRows := by
  obtain ⟨-, hnooutputs⟩ := harranged.lists_nil hw
  have hderived := List.flatMap_eq_nil_iff.mpr (owed_derived hdraft hlowered hw)
  have hdeclared : (w.signals.toList.take doc.vars.length).map w.owed = doc.vars.map doc.endRows := by
    refine (map_eq_of_forall₂ (tied_signals hlowered harranged hw) fun v t ht htied => ?_).symm
    obtain ⟨i, hi⟩ := List.mem_iff_getElem?.mp (List.mem_of_mem_take ht)
    rw [Array.getElem?_toList] at hi
    have hs : w.signal? ⟨i⟩ = some t := hi
    exact (htied.owed (Model.hasTap_of_outputs_nil hw.enrolled hw.edges hnooutputs hs)).symm
  rw [Model.dues, ← List.take_append_drop doc.vars.length w.signals.toList, List.flatMap_append, hderived,
    List.append_nil, List.flatMap_def, hdeclared, List.flatMap_def]

/-- The census of the model of a valid document. It has the blocks that the document asks for, and no others:
for each breakpoint set and input that functions ask for a normalizer, for each function a lookup, for each
operator and each literal of a formula a block of its own, for each reference that is a whole formula a sum of
one term, and what is due at the ends of the variables. The blocks of formulas stand right behind those of
functions, and each reads what its arguments are carried by, in their order. -/
theorem census_of_document [Unbounded α] (hdoc : doc.check = .ok ()) (hbuild : doc.build = .ok m) :
    m.rows.Perm doc.census ∧
      m.Spreads doc.vars doc.gridRows.length (doc.gridRows ++ doc.formulaRows).length := by
  obtain ⟨d, hdraft, hbuild⟩ := build_ok hbuild
  have hvalid := check_ok hdoc
  have hlowered := lowered_of_draft hvalid hdraft
  have harranged := arranged_of_draft hvalid hdraft
  have hd := hlowered.sound
  obtain ⟨w, -, hw, -, hext, hcomplete⟩ := Draft.build_ok hd hbuild
  obtain ⟨holder, hholder⟩ := Model.exists_holder hext hcomplete
  obtain ⟨hrows, hspreads⟩ := rows_of_draft hvalid hdraft
  constructor
  · have hcount := hcomplete.rows_perm hext hw.edges
    rw [hw.rows_eq, dues_of_document hdraft hlowered harranged hw] at hcount
    rw [census, ← List.append_assoc]
    exact hcount.trans (hrows.append_right _)
  · exact hspreads.completed hd hw hholder hlowered.signals

/-- Two functions that share a normalizer, a formula of a formula, a reference and a literal that are whole
formulas, a limited input and a constant. -/
def boiler : Document Float where
  version := 1
  name := "boiler"
  vars :=
    [ { varId := "x", min := some 0, roles := { input := true }, initial := some 1 },
      { varId := "k", initial := some 3 },
      { varId := "y", calculation :=
          some (.apply .plus [.name "x", .number 2, .apply .times [.var "k", .name "x"]]) },
      { varId := "c", calculation := some (.name "y"), roles := { output := true } },
      { varId := "l", calculation := some (.const 7) }, { varId := "u" }, { varId := "v" } ]
  breakpoints := [{ id := "grid", values := [0, 1] }, { id := "steps", values := [0, 5] }]
  tables := [{ id := "sheet", axes := ["steps", "grid"], values := [0, 1, 2, 3] }]
  functions :=
    [ { name := "f", inputs := ["x"], output := "u", table := .own ["grid"] [10, 20] },
      { name := "g", inputs := ["k", "x"], output := "v", table := .shared "sheet" } ]

theorem census_of_boiler :
    ∃ m : Model Float, boiler.build = .ok m ∧
      m.rows.Perm
        [⟨.normalizer ⟨0⟩, [some "x"]⟩, ⟨.normalizer ⟨1⟩, [some "k"]⟩, ⟨.lookup ⟨1⟩, [none]⟩,
          ⟨.lookup ⟨0⟩, [none, none]⟩, ⟨.sum, [some "x", none, none]⟩, ⟨.constant 2, []⟩,
          ⟨.product, [some "k", some "x"]⟩, ⟨.sum, [some "y"]⟩, ⟨.constant 7, []⟩,
          ⟨.limiter 0 Scalar.top, [none]⟩, ⟨.input, []⟩, ⟨.constant 3, []⟩, ⟨.output, [some "c"]⟩,
          ⟨.output, [some "l"]⟩, ⟨.output, [some "u"]⟩, ⟨.output, [some "v"]⟩] ∧
      m.Spreads boiler.vars 4 9 := by
  have hvalid : boiler.check.toOption.any (fun _ => true) = true := by decide +kernel
  have hbuilds : boiler.build.toOption.any (fun _ => true) = true := by decide +kernel
  obtain ⟨u, hcheck, -⟩ := outcome_of_any hvalid
  obtain ⟨m, hbuild, -⟩ := outcome_of_any hbuilds
  obtain ⟨hrows, hspreads⟩ := census_of_document hcheck hbuild
  exact ⟨m, hbuild, hrows.trans (List.isPerm_iff.mp (by decide +kernel)), hspreads⟩

end Document

end BlockDiagram
