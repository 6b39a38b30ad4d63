import BlockDiagram.Proofs.Document.RoundTrip
import BlockDiagram.Proofs.Document.Valid
import BlockDiagram.Proofs.Json.Reading
import BlockDiagram.Storage
/-! Saving as JSON: which documents can be read again from the text that was saved, and what is read. -/

namespace BlockDiagram

variable {α : Type} {kept : Float → Bool}

section Depth

mutual

/-- The levels of a formula as it is written: an operator takes two, one for itself and one for its
arguments. -/
def Formula.levels : Formula α → Nat
  | .number _ | .name _ => 0
  | .const _ | .var _ => 1
  | .apply _ args => Formula.levelsOf args + 2

def Formula.levelsOf : List (Formula α) → Nat
  | [] => 0
  | f :: rest => max (Formula.levels f) (Formula.levelsOf rest)

end

/-- No calculation goes deeper than a reader follows it. -/
def Document.withinDepth (limit : Nat) (doc : Document α) : Bool :=
  doc.vars.all fun v => v.calculation.all fun f => f.levels + 3 ≤ limit

open Datum (nodeKeeping nodesKeeping entriesKeeping)

mutual

theorem Formula.depth_datum (f : Formula Float) : (f.datum.nodeKeeping kept).depth = f.levels := by
  cases f with
  | apply op args =>
      have hargs := Formula.depth_data args
      simp only [Formula.datum, nodeKeeping, entriesKeeping, Node.depth, Node.depthOfEntries, hargs,
        Formula.levels]
      omega
  | _ => rfl

theorem Formula.depth_data (fs : List (Formula Float)) :
    Node.depthOfItems (nodesKeeping kept (Formula.data fs)) = Formula.levelsOf fs := by
  cases fs with
  | nil => rfl
  | cons f rest =>
      rw [Formula.data, nodesKeeping, Node.depthOfItems, Formula.depth_datum f, Formula.depth_data rest,
        Formula.levelsOf]

end

theorem depth_leaves {β : Type} (write : β → Datum) (hwrite : ∀ x, ((write x).nodeKeeping kept).depth = 0)
    (xs : List β) : ((Datum.list (xs.map write)).nodeKeeping kept).depth = 1 := by
  have hitems : Node.depthOfItems (nodesKeeping kept (xs.map write)) = 0 := by
    induction xs with
    | nil => rfl
    | cons x xs ih => rw [List.map_cons, nodesKeeping, Node.depthOfItems, hwrite, ih]; rfl
  rw [nodeKeeping, Node.depth, hitems]

theorem TableSource.depth_datum (t : TableSource Float) : (t.datum.nodeKeeping kept).depth ≤ 2 := by
  cases t with
  | shared id => exact Nat.zero_le 2
  | own axes values =>
      have haxes : ((texts axes).nodeKeeping kept).depth = 1 := depth_leaves _ (fun _ => rfl) axes
      have hvalues : ((reals values).nodeKeeping kept).depth = 1 := depth_leaves _ (fun _ => rfl) values
      simp only [TableSource.datum, nodeKeeping, entriesKeeping, Node.depth, Node.depthOfEntries, haxes,
        hvalues]
      omega

end Depth

namespace Json

theorem itemsInWords_map {β : Type} {write : β → Datum} (hwrite : ∀ x, InWords (write x)) (xs : List β) :
    ItemsInWords (xs.map write) := by
  induction xs with
  | nil => trivial
  | cons x xs ih => exact ⟨hwrite x, ih⟩

theorem fieldsInWords_present {parts : List (String × Option Datum)}
    (h : ∀ part ∈ parts, ∀ d ∈ part.2, InWords d) : FieldsInWords (Datum.present parts) := by
  induction parts with
  | nil => trivial
  | cons part rest ih =>
      obtain ⟨name, d?⟩ := part
      have hrest := ih fun p hp => h p (List.mem_cons_of_mem _ hp)
      cases d? with
      | none => exact hrest
      | some d => exact ⟨h _ List.mem_cons_self d rfl, hrest⟩

mutual

theorem inWords_formula (f : Formula Float) : InWords f.datum := by
  cases f with
  | apply op args => exact ⟨trivial, inWords_formulas args, trivial⟩
  | const x => exact ⟨trivial, trivial⟩
  | var id => exact ⟨trivial, trivial⟩
  | _ => trivial

theorem inWords_formulas (fs : List (Formula Float)) : ItemsInWords (Formula.data fs) := by
  cases fs with
  | nil => trivial
  | cons f rest => exact ⟨inWords_formula f, inWords_formulas rest⟩

end

theorem inWords_texts (xs : List String) : InWords (texts xs) :=
  @itemsInWords_map _ Datum.text (fun _ => trivial) xs

theorem inWords_reals (xs : List Float) : InWords (reals xs) :=
  @itemsInWords_map _ Datum.real (fun _ => trivial) xs

theorem inWords_variable (v : Document.Variable Float) : InWords v.datum := by
  rw [Document.Variable.datum_eq]
  refine fieldsInWords_present ?_
  simp [Document.Variable.parts, InWords, inWords_formula]

theorem inWords_breakpoints (b : Document.Breakpoints Float) : InWords b.datum :=
  ⟨trivial, trivial, inWords_reals b.values, trivial⟩

theorem inWords_grid (t : Document.Grid Float) : InWords t.datum :=
  ⟨trivial, inWords_texts t.axes, inWords_reals t.values, trivial⟩

theorem inWords_tableSource (t : TableSource Float) : InWords t.datum := by
  cases t with
  | shared id => trivial
  | own axes values => exact ⟨inWords_texts axes, inWords_reals values, trivial⟩

theorem inWords_function (f : Document.Function Float) : InWords f.datum :=
  ⟨trivial, inWords_texts _, trivial, inWords_tableSource f.table, trivial⟩

theorem inWords_document {doc : Document Float} (h : doc.version < wordSize) : InWords doc.datum := by
  have hvars := itemsInWords_map inWords_variable doc.vars
  have hbreakpoints := itemsInWords_map inWords_breakpoints doc.breakpoints
  have htables := itemsInWords_map inWords_grid doc.tables
  have hfunctions := itemsInWords_map inWords_function doc.functions
  rw [Document.datum]
  cases doc.description with
  | none => exact ⟨h, trivial, hvars, hbreakpoints, htables, hfunctions, trivial⟩
  | some s => exact ⟨h, trivial, trivial, hvars, hbreakpoints, htables, hfunctions, trivial⟩

end Json

namespace Document

open Datum (nodeKeeping nodesKeeping)

theorem contentsOf_list {β : Type} {positional : Bool} {fields : Fields} {list name : String}
    {names : List String} {write : β → Datum} {content : β → Option Node} {xs : List β}
    (hlookup : fields.lookup list = some ((Datum.list (xs.map write)).nodeKeeping kept))
    (hcontent : ∀ x,
      (((write x).nodeKeeping kept).fields? positional names).bind (List.lookup name) = content x) :
    contentsOf positional fields list names name = xs.filterMap content := by
  rw [contentsOf, hlookup]
  change (nodesKeeping kept (xs.map write)).filterMap _ = _
  rw [Datum.nodesKeeping_eq_map, List.map_map, List.filterMap_map]
  exact List.filterMap_congr fun x _ => hcontent x

/-- What is read of a document nests as its formulas do: no table source is too deep. -/
theorem nestsWithin_datum (positional : Bool) {limit : Nat} (hlimit : 5 ≤ limit) (doc : Document Float) :
    nestsWithin positional limit (doc.datum.nodeKeeping kept) = doc.withinDepth limit := by
  have hnames : doc.parts.map Prod.fst = documentFields := rfl
  obtain ⟨fields, hfields, hlookup⟩ := @Datum.read_record kept _ _ hnames (by decide) positional
  rw [← datum_eq] at hfields
  have hvars : contentsOf positional fields "variables" variableFields "calculation" =
      doc.vars.filterMap fun v => v.calculation.map fun f => f.datum.nodeKeeping kept := by
    refine contentsOf_list (hlookup "variables") fun v => ?_
    have hparts : v.parts.map Prod.fst = variableFields := rfl
    obtain ⟨parts, hparts, hfound⟩ := @Datum.read_record kept _ _ hparts (by decide) positional
    rw [← Variable.datum_eq] at hparts
    have hcalculation : v.parts.lookup "calculation" = some (v.calculation.map Formula.datum) := rfl
    rw [hparts, Option.bind_some, hfound, hcalculation, Option.join_some, Option.map_map]
    rfl
  have hfunctions : contentsOf positional fields "functions" functionFields "table" =
      doc.functions.filterMap fun f => some (f.table.datum.nodeKeeping kept) := by
    refine contentsOf_list (hlookup "functions") fun f => ?_
    have hparts : (f.datum.nodeKeeping kept).fields? positional functionFields =
        some (Datum.fieldsKeeping kept [("name", .text f.name), ("inputs", texts f.inputs),
          ("output", .text f.output), ("table", f.table.datum)]) :=
      Datum.fields?_record (show List.Nodup functionFields by decide) (List.Sublist.refl _) positional
    rw [hparts]
    rfl
  have hshallow : (doc.functions.filterMap fun f => some (f.table.datum.nodeKeeping kept)).all
      (fun n => decide (n.depth + 3 ≤ limit)) = true := by
    refine List.all_eq_true.mpr fun n hn => decide_eq_true ?_
    obtain ⟨f, -, hf⟩ := List.mem_filterMap.mp hn
    obtain rfl := Option.some.inj hf
    have := @TableSource.depth_datum kept f.table
    omega
  rw [nestsWithin, hfields]
  dsimp only
  rw [hvars, hfunctions, List.all_append, hshallow, Bool.and_true, withinDepth, List.all_filterMap]
  refine congrArg doc.vars.all (funext fun v => ?_)
  cases v.calculation with
  | none => rfl
  | some f =>
      rw [Option.map_some, Option.all_some, ← @Formula.depth_datum kept f]

theorem checkSection_map {β : Type} {context : Section} {id : β → String}
    {check : β → Except (DocumentError α) Unit} (change : β → β) (hid : ∀ b, id (change b) = id b)
    (hcheck : ∀ b, check b = .ok () → check (change b) = .ok ()) {seen : List String} {bs : List β}
    (h : checkSection context id check seen bs = .ok ()) :
    checkSection context id check seen (bs.map change) = .ok () := by
  induction bs generalizing seen with
  | nil => rfl
  | cons b rest ih =>
      rw [checkSection] at h
      rw [List.map_cons, checkSection, hid]
      split at h
      · cases h
      · next hnew =>
          obtain ⟨u, hfirst, hrest⟩ := outcome_bind_ok.mp h
          rw [if_neg hnew]
          exact outcome_bind_ok.mpr ⟨(), hcheck b hfirst, ih hrest⟩

theorem checkLimits_keptOnly {v : Variable Float} (h : checkLimits v = .ok ()) :
    checkLimits (v.keptOnly kept) = .ok () := by
  rw [checkLimits] at h ⊢
  dsimp only [Variable.keptOnly]
  cases hmin : v.min with
  | none => rfl
  | some lo =>
      cases hmax : v.max with
      | none => cases (some lo).filter kept <;> rfl
      | some hi =>
          rw [hmin, hmax] at h
          rw [Option.filter_some, Option.filter_some]
          cases kept lo
          · rfl
          · cases kept hi
            · rfl
            · exact h

theorem checkCalculations_keptOnly {varIds : List String} {vars : List (Variable Float)}
    (h : checkCalculations varIds vars = .ok ()) :
    checkCalculations varIds (vars.map (Variable.keptOnly kept)) = .ok () := by
  induction vars with
  | nil => rfl
  | cons v rest ih =>
      rw [checkCalculations] at h
      rw [List.map_cons, checkCalculations]
      dsimp only [Variable.keptOnly]
      cases hcalculation : v.calculation with
      | none =>
          rw [hcalculation] at h
          exact ih h
      | some f =>
          rw [hcalculation] at h
          obtain ⟨u, hfirst, hrest⟩ := outcome_bind_ok.mp h
          rw [Option.filter_some]
          cases f.isLost kept
          · exact outcome_bind_ok.mpr ⟨(), hfirst, ih hrest⟩
          · exact ih hrest

/-- A valid document is still valid when what is not kept is missing. -/
theorem check_keptOnly {doc : Document Float} (h : doc.check = .ok ()) :
    (doc.keptOnly kept).check = .ok () := by
  have hids : (doc.keptOnly kept).vars.map Variable.varId = doc.vars.map Variable.varId := by
    rw [keptOnly, List.map_map]
    rfl
  unfold check at h ⊢
  rw [hids]
  split at h
  · cases h
  · next hversion =>
      obtain ⟨_, hvars, h⟩ := outcome_bind_ok.mp h
      obtain ⟨_, hsets, h⟩ := outcome_bind_ok.mp h
      obtain ⟨_, htables, h⟩ := outcome_bind_ok.mp h
      obtain ⟨_, hfunctions, hcalculations⟩ := outcome_bind_ok.mp h
      have hlimits : checkSection .vars Variable.varId checkLimits []
          (doc.vars.map (Variable.keptOnly kept)) = .ok () := by
        refine checkSection_map (Variable.keptOnly kept) ?_ ?_ hvars
        · exact fun _ => rfl
        · exact fun _ => checkLimits_keptOnly
      refine (if_neg hversion).trans ?_
      refine outcome_bind_ok.mpr ⟨(), hlimits, ?_⟩
      refine outcome_bind_ok.mpr ⟨(), hsets, ?_⟩
      refine outcome_bind_ok.mpr ⟨(), htables, ?_⟩
      exact outcome_bind_ok.mpr ⟨(), hfunctions, checkCalculations_keptOnly hcalculations⟩

theorem version_of_check {doc : Document Float} (h : doc.check = .ok ()) : doc.version ≤ latestVersion := by
  unfold check at h
  split at h
  · cases h
  · next hversion =>
      simp only [Bool.or_eq_true, decide_eq_true_eq, not_or, Nat.not_lt] at hversion
      exact hversion.2

/-- A text that was saved is read again if every real that may not be missing is finite and no calculation
goes too deep, and not at all otherwise. What is read is the document that was saved, without the reals
that may be missing and are not finite. -/
theorem load_of_save {doc : Document Float} {text : String} (h : Format.json.save doc = .ok text) :
    Format.json.load text =
      if doc.keeps Float.isFinite && doc.withinDepth Format.json.nestingLimit then
        .ok (doc.keptOnly Float.isFinite)
      else .error (.text .json) := by
  obtain ⟨_, hcheck, hwritten⟩ := outcome_bind_ok.mp h
  cases hwritten
  have hversion := version_of_check hcheck
  have hnode : Format.json.node? (Format.json.write doc) = some (doc.datum.nodeKeeping Float.isFinite) :=
    Json.read?_write (Json.inWords_document (Nat.lt_of_le_of_lt hversion (by decide)))
  have hdoc : Document.ofNode? Format.json.positional (doc.datum.nodeKeeping Float.isFinite) =
      if doc.keeps Float.isFinite then some (doc.keptOnly Float.isFinite) else none :=
    ofNode?_datum (Nat.lt_of_le_of_lt hversion (by decide)) _
  have hdepth : nestsWithin Format.json.positional Format.json.nestingLimit
      (doc.datum.nodeKeeping Float.isFinite) = doc.withinDepth Format.json.nestingLimit :=
    nestsWithin_datum _ (by decide) doc
  have hparsed : Format.json.parse (Format.json.write doc) =
      if doc.keeps Float.isFinite && doc.withinDepth Format.json.nestingLimit then
        .ok (doc.keptOnly Float.isFinite)
      else .error (.text .json) := by
    rw [Format.parse, hnode]
    simp only [Option.bind_eq_bind, Option.bind_some, hdepth, hdoc]
    cases doc.keeps Float.isFinite <;> cases doc.withinDepth Format.json.nestingLimit <;> rfl
  rw [Format.load, hparsed]
  split
  · dsimp only [Bind.bind, Except.bind]
    rw [check_keptOnly hcheck]
    rfl
  · rfl

/-- A valid document with a table of two points. -/
def twoPoints (x y : Float) : Document Float where
  version := 1
  name := "two points"
  breakpoints := [{ id := "axis", values := [0, 1] }]
  tables := [{ id := "ramp", axes := ["axis"], values := [x, y] }]

theorem load_of_save_twoPoints :
    (Format.json.save (twoPoints (0 / 0) 1) = .ok (Format.json.write (twoPoints (0 / 0) 1)) ∧
      Format.json.load (Format.json.write (twoPoints (0 / 0) 1)) = .error (.text .json)) ∧
    Format.json.save (twoPoints 2 1) = .ok (Format.json.write (twoPoints 2 1)) ∧
      Format.json.load (Format.json.write (twoPoints 2 1)) = .ok (twoPoints 2 1) := by
  have hgap : Format.json.save (twoPoints (0 / 0) 1) = .ok (Format.json.write (twoPoints (0 / 0) 1)) := rfl
  have hlost : ((twoPoints (0 / 0) 1).keeps Float.isFinite &&
      (twoPoints (0 / 0) 1).withinDepth Format.json.nestingLimit) = false := by decide +kernel
  have hwhole : Format.json.save (twoPoints 2 1) = .ok (Format.json.write (twoPoints 2 1)) := rfl
  have hkept : ((twoPoints 2 1).keeps Float.isFinite &&
      (twoPoints 2 1).withinDepth Format.json.nestingLimit) = true := by decide +kernel
  exact ⟨⟨hgap, (load_of_save hgap).trans (by rw [hlost]; rfl)⟩,
    hwhole, (load_of_save hwhole).trans (by rw [hkept]; rfl)⟩

end Document

end BlockDiagram
